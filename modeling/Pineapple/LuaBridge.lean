import Pineapple.JsonWriter
import Pineapple.Lib.Binary64
import Mathlib.Data.List.Lex
import Mathlib.Order.Lex

/-! # Values in and out of Lua (`lua_bridge.cpp`)

`to_lua` builds tables on the stack of a Lua state, and `from_lua` reads them. Arrays and objects become the same kind
of table; the length of a table and the types of its keys tell them apart. -/

namespace Pineapple.Lua

open Json (Bytes Value keyLess)

/-! ## Lua values and tables -/

/-- The types that `from_lua` makes null of. -/
inductive Kind
  | function | userdata | lightuserdata | thread
deriving DecidableEq

inductive LuaValue
  | nil
  | boolean (b : Bool)
  | number (d : Binary64)
  | string (s : Bytes)
  | table (ref : Nat)
  | other (kind : Kind) (id : Nat)
deriving DecidableEq

/-- What a table may have as a key; `index` is a number without a fraction. -/
inductive Key
  | index (i : Int)
  | number (d : Binary64)
  | boolean (b : Bool)
  | string (s : Bytes)
  | table (ref : Nat)
  | other (kind : Kind) (id : Nat)
deriving DecidableEq

def Key.value : Key → LuaValue
  | index i => .number (.ofInt i)
  | number d => .number d
  | boolean b => .boolean b
  | string s => .string s
  | table ref => .table ref
  | other kind id => .other kind id

/-- `lua_typename` of a key. -/
def Key.typename : Key → String
  | index _ => "number"
  | number _ => "number"
  | boolean _ => "boolean"
  | string _ => "string"
  | table _ => "table"
  | other .function _ => "function"
  | other .userdata _ => "userdata"
  | other .lightuserdata _ => "userdata"
  | other .thread _ => "thread"

/-- The fields of a table: every key once, and no nil. -/
structure Table where
  entries : List (Key × LuaValue)
  nodup : (entries.map Prod.fst).Nodup
  not_nil : ∀ e ∈ entries, e.2 ≠ .nil

namespace Table

def empty : Table := ⟨[], List.nodup_nil, fun _ he => absurd he List.not_mem_nil⟩

instance : Inhabited Table := ⟨empty⟩

def get (t : Table) (key : Key) : LuaValue := (t.entries.lookup key).getD .nil

/-- `lua_rawset` of a value, which is taken away where it is nil. -/
def set (t : Table) (key : Key) (v : LuaValue) : Table where
  entries := t.entries.filter (fun e => e.1 ≠ key) ++ if v = .nil then [] else [(key, v)]
  nodup := by
    have hrest : ((t.entries.filter fun e => e.1 ≠ key).map Prod.fst).Nodup :=
      t.nodup.sublist (List.filter_sublist.map Prod.fst)
    split
    · rwa [List.append_nil]
    · rw [List.map_append, List.nodup_append]
      refine ⟨hrest, List.nodup_singleton _, ?_⟩
      rintro a ha b hb rfl
      obtain ⟨e, he, rfl⟩ := List.mem_map.mp ha
      have hne := (List.mem_filter.mp he).2
      simp only [List.map_cons, List.map_nil, List.mem_singleton] at hb
      exact absurd hb (of_decide_eq_true hne)
  not_nil e he := by
    rcases List.mem_append.mp he with he | he
    · exact t.not_nil e (List.mem_filter.mp he).1
    · split at he
      · cases he
      · next hv =>
        obtain rfl := List.mem_singleton.mp he
        exact hv

end Table

/-- What is documented of the length of a table, and of the order in which `lua_next` goes through it. -/
structure Semantics where
  objlen : Table → Nat
  border : ∀ t, (objlen t = 0 ∨ t.get (.index (objlen t)) ≠ .nil) ∧ t.get (.index (objlen t + 1)) = .nil
  order : Table → List (Key × LuaValue)
  perm : ∀ t, (order t).Perm t.entries

/-- The tables by their addresses, and the stack from its top. -/
structure LuaState where
  heap : List Table
  stack : List LuaValue

namespace LuaState

def push (s : LuaState) (x : LuaValue) : LuaState := { s with stack := x :: s.stack }

/-- `lua_createtable`. -/
def createtable (s : LuaState) : LuaState := ⟨s.heap ++ [.empty], .table s.heap.length :: s.stack⟩

/-- `lua_rawseti` into the table below the top. -/
def rawseti (s : LuaState) (i : Int) : LuaState :=
  match s.stack with
  | v :: .table ref :: rest => ⟨s.heap.modify ref fun t => t.set (.index i) v, .table ref :: rest⟩
  | _ => s

/-- `lua_rawset` with a string below the value, into the table below both. -/
def rawset (s : LuaState) : LuaState :=
  match s.stack with
  | v :: .string k :: .table ref :: rest => ⟨s.heap.modify ref fun t => t.set (.string k) v, .table ref :: rest⟩
  | _ => s

end LuaState

/-! ## The conversions -/

mutual
/-- `to_lua`. -/
def toLua : Value → LuaState → LuaState
  | .null, s => s.push .nil
  | .bool b, s => s.push (.boolean b)
  | .number d, s => s.push (.number d)
  | .string t, s => s.push (.string t)
  | .array xs, s => toLuaElements xs 1 s.createtable
  | .object es, s => toLuaMembers es s.createtable

def toLuaElements : List Value → Nat → LuaState → LuaState
  | [], _, s => s
  | x :: xs, i, s => toLuaElements xs (i + 1) ((toLua x s).rawseti i)

def toLuaMembers : List (Bytes × Value) → LuaState → LuaState
  | [], s => s
  | (k, v) :: es, s => toLuaMembers es (toLua v (s.push (.string k))).rawset
end

/-- An `ExecutionError`, a `std::string` made of a null pointer, or an error of Lua that passes as an exception. -/
inductive Thrown
  | execution (op : String) (msg : Bytes)
  | nullString
  | lua
deriving DecidableEq

/-- How a function leaves the stack. -/
inductive Exit (α : Type)
  | ret (stack : List LuaValue) (a : α)
  | throw (stack : List LuaValue) (e : Thrown)

def Exit.stack {α : Type} : Exit α → List LuaValue
  | ret stack _ => stack
  | throw stack _ => stack

/-- The table at an index from the bottom of the stack. -/
def tableAt (heap : List Table) (stack : List LuaValue) (absIdx : Nat) : Table :=
  match stack[stack.length - absIdx]? with
  | some (.table ref) => heap.getD ref .empty
  | _ => .empty

/-- `obj[key] = v` on a `FlatMap`. -/
def assign (key : Bytes) (v : Value) : List (Bytes × Value) → List (Bytes × Value)
  | [] => [(key, v)]
  | e :: es =>
    if keyLess e.1 key then e :: assign key v es
    else if e.1 = key then (key, v) :: es
    else (key, v) :: e :: es

section
variable (sem : Semantics) (heap : List Table) (convert : List LuaValue → Nat → Option (Exit Value)) (absIdx : Nat)

/-- The loop over the elements, with the indices that are left. -/
def readElements : List Nat → List Value → List LuaValue → Option (Exit Value)
  | [], arr, stack => some (.ret stack (.array arr))
  | i :: rest, arr, stack =>
    match convert ((tableAt heap stack absIdx).get (.index i) :: stack) 1 with
    | none => none
    | some (.throw stack e) => some (.throw stack e)
    | some (.ret stack v) => readElements rest (arr ++ [v]) stack.tail

/-- The loop over the fields, with what `lua_next` has left to give. The key of the round before is on the stack. -/
def readMembers : List (Key × LuaValue) → List (Bytes × Value) → List LuaValue → Option (Exit Value)
  | [], obj, stack => some (.ret stack.tail (if obj.isEmpty then .array [] else .object obj))
  | (key, v) :: rest, obj, stack =>
    let stack := v :: key.value :: stack.tail
    match key with
    | .string ks =>
      match convert stack 1 with
      | none => none
      | some (.throw stack e) => some (.throw stack e)
      | some (.ret stack v) => readMembers rest (assign ks v obj) stack.tail
    | _ => some (.throw (stack.drop 2)
        (.execution "" (Json.token "lua: table has non-string key of type \"" ++ Json.token key.typename ++ Json.token "\"")))

/-- `from_lua` of the value that stands `k` from the top; without fuel it has not ended. -/
def fromLua : (fuel : Nat) → List LuaValue → (k : Nat) → Option (Exit Value)
  | 0, _, _ => none
  | fuel + 1, stack, k =>
    match stack[k - 1]? with
    | some (.boolean b) => some (.ret stack (.bool b))
    | some (.number d) => some (.ret stack (.number d))
    | some (.string s) => some (.ret stack (.string s))
    | some (.table _) =>
      let absIdx := stack.length - k + 1
      let len := sem.objlen (tableAt heap stack absIdx)
      if 0 < len then readElements heap (fromLua fuel) absIdx (List.range' 1 len) [] stack
      else readMembers (fromLua fuel) (sem.order (tableAt heap stack absIdx)) [] (.nil :: stack)
    | _ => some (.ret stack .null)

end

/-! ## Values that come back -/

/-- A value without null and without an empty object, its objects as `FlatMap` keeps them. -/
inductive Solid : Value → Prop
  | bool (b : Bool) : Solid (.bool b)
  | number (d : Binary64) : Solid (.number d)
  | string (s : Bytes) : Solid (.string s)
  | array {xs : List Value} : (∀ v ∈ xs, Solid v) → Solid (.array xs)
  | object {es : List (Bytes × Value)} : es ≠ [] → es.Pairwise (fun a b => keyLess a.1 b.1 = true) →
      (∀ e ∈ es, Solid e.2) → Solid (.object es)

/-- The fields of the table that an array or an object becomes. -/
def fields : Value → List (Key × Value)
  | .array xs => xs.zipIdx.map fun x => (.index ((x.2 : Int) + 1), x.1)
  | .object es => es.map fun e => (.string e.1, e.2)
  | _ => []

/-- A Lua value that stands for a value, in tables from an address on. -/
inductive Represents (heap : List Table) : Nat → LuaValue → Value → Prop
  | null {lo : Nat} : Represents heap lo .nil .null
  | bool {lo : Nat} (b : Bool) : Represents heap lo (.boolean b) (.bool b)
  | number {lo : Nat} (d : Binary64) : Represents heap lo (.number d) (.number d)
  | string {lo : Nat} (s : Bytes) : Represents heap lo (.string s) (.string s)
  | array {lo ref : Nat} {t : Table} {xs : List Value} : lo ≤ ref → heap[ref]? = some t →
      t.entries.map Prod.fst = (fields (.array xs)).map Prod.fst →
      (∀ p ∈ t.entries.zip (fields (.array xs)), Represents heap (ref + 1) p.1.2 p.2.2) →
      Represents heap lo (.table ref) (.array xs)
  | object {lo ref : Nat} {t : Table} {es : List (Bytes × Value)} : lo ≤ ref → heap[ref]? = some t →
      t.entries.map Prod.fst = (fields (.object es)).map Prod.fst →
      (∀ p ∈ t.entries.zip (fields (.object es)), Represents heap (ref + 1) p.1.2 p.2.2) →
      Represents heap lo (.table ref) (.object es)

theorem Represents.mono {heap heap' : List Table} {lo lo' : Nat} {x : LuaValue} {v : Value}
    (h : Represents heap lo x v) (hlo : lo' ≤ lo)
    (hheap : ∀ r t, lo ≤ r → heap[r]? = some t → heap'[r]? = some t) : Represents heap' lo' x v := by
  induction h generalizing lo' with
  | null => exact .null
  | bool b => exact .bool b
  | number d => exact .number d
  | string s => exact .string s
  | array hle ht hkeys _ ih =>
    refine .array (hlo.trans hle) (hheap _ _ hle ht) hkeys fun p hp => ?_
    exact ih p hp (Nat.le_refl _) fun r t hr => hheap r t (by omega)
  | object hle ht hkeys _ ih =>
    refine .object (hlo.trans hle) (hheap _ _ hle ht) hkeys fun p hp => ?_
    exact ih p hp (Nat.le_refl _) fun r t hr => hheap r t (by omega)

/-! ## Pushing a value -/

/-- A table below the top of the stack that holds its first fields, above tables that are as they were. -/
structure Filled (heap₀ : List Table) (ref : Nat) (rest : List LuaValue) (done : List (Key × Value)) (s : LuaState) :
    Prop where
  stack : s.stack = .table ref :: rest
  base : ref = heap₀.length
  below : ∀ r, r < ref → s.heap[r]? = heap₀[r]?
  table : ∃ t, s.heap[ref]? = some t ∧ t.entries.map Prod.fst = done.map Prod.fst ∧
    ∀ p ∈ t.entries.zip done, Represents s.heap (ref + 1) p.1.2 p.2.2

/-- What `to_lua` does: the tables that were there stay, and a value that is not nil stands on the stack. -/
def Pushes (v : Value) : Prop :=
  ∀ s, ∃ heap y, toLua v s = ⟨heap, y :: s.stack⟩ ∧
    (∀ r, r < s.heap.length → heap[r]? = s.heap[r]?) ∧ y ≠ .nil ∧ Represents heap s.heap.length y v

theorem createtable_filled (s : LuaState) : Filled s.heap s.heap.length s.stack [] s.createtable where
  stack := rfl
  base := rfl
  below r hr := List.getElem?_append_left hr
  table := ⟨.empty, by simp [LuaState.createtable], rfl, fun p hp => by simp [Table.empty] at hp⟩

theorem Table.set_entries {t : Table} {key : Key} {y : LuaValue} (hy : y ≠ .nil)
    (hkey : key ∉ t.entries.map Prod.fst) : (t.set key y).entries = t.entries ++ [(key, y)] := by
  have hrest : t.entries.filter (fun e => e.1 ≠ key) = t.entries :=
    List.filter_eq_self.mpr fun e he => decide_eq_true fun h => hkey (h ▸ List.mem_map_of_mem he)
  simp only [Table.set, if_neg hy, hrest]

variable {heap₀ : List Table} {ref : Nat} {rest : List LuaValue} {done : List (Key × Value)} {s : LuaState}

/-- A value that `to_lua` pushed goes into the table. -/
theorem Filled.put (h : Filled heap₀ ref rest done s) {key : Key} (hkey : key ∉ done.map Prod.fst) {v : Value}
    {heap : List Table} {y : LuaValue}
    (hsame : ∀ r, r < s.heap.length → heap[r]? = s.heap[r]?) (hy : y ≠ .nil)
    (hrep : Represents heap s.heap.length y v) :
    Filled heap₀ ref rest (done ++ [(key, v)])
      ⟨heap.modify ref fun t => t.set key y, .table ref :: rest⟩ := by
  obtain ⟨t, ht, hkeys, hfields⟩ := h.table
  have href : ref < s.heap.length := (List.getElem?_eq_some_iff.mp ht).1
  have hset : (t.set key y).entries = t.entries ++ [(key, y)] := Table.set_entries hy (by rwa [hkeys])
  have hother : ∀ r, r ≠ ref → (heap.modify ref fun t => t.set key y)[r]? = heap[r]? := fun r hr => by
    exact List.getElem?_modify_ne _ _ (Ne.symm hr)
  refine ⟨rfl, h.base, fun r hr => ?_, t.set key y, ?_, ?_, ?_⟩
  · rw [hother r (Nat.ne_of_lt hr), hsame r (hr.trans href), h.below r hr]
  · rw [List.getElem?_modify_eq, hsame ref href, ht]
    rfl
  · rw [hset, List.map_append, List.map_append, hkeys]
    rfl
  · have hl : t.entries.length = done.length := by simpa using congrArg List.length hkeys
    rw [hset, List.zip_append hl]
    intro p hp
    rcases List.mem_append.mp hp with hp | hp
    · refine (hfields p hp).mono (Nat.le_refl _) fun r t' hr ht' => ?_
      rw [hother r (by omega), hsame r (List.getElem?_eq_some_iff.mp ht').1, ht']
    · obtain rfl := List.mem_singleton.mp hp
      refine hrep.mono href fun r t' hr ht' => ?_
      rw [hother r (by omega), ht']

/-- The loop over the elements of an array. -/
theorem toLuaElements_filled {xs : List Value} (hxs : ∀ v ∈ xs, Pushes v) (pre : List Value)
    (h : Filled heap₀ ref rest (fields (.array pre)) s) :
    Filled heap₀ ref rest (fields (.array (pre ++ xs))) (toLuaElements xs (pre.length + 1) s) := by
  induction xs generalizing pre s with
  | nil => simpa [toLuaElements] using h
  | cons x xs ih =>
    obtain ⟨heap, y, hpush, hsame, hy, hrep⟩ := hxs x List.mem_cons_self s
    have hkey : Key.index ((pre.length : Int) + 1) ∉ (fields (.array pre)).map Prod.fst := by
      simp only [fields, List.map_map, List.mem_map, not_exists, not_and]
      rintro ⟨z, i⟩ hz heq
      have := (List.mem_zipIdx hz).2.1
      simp only [Function.comp_apply, Key.index.injEq] at heq
      omega
    have hone : fields (.array (pre ++ [x])) = fields (.array pre) ++ [(.index ((pre.length : Int) + 1), x)] := by
      simp [fields, List.zipIdx_append]
    have hput := h.put hkey hsame hy hrep
    rw [← hone] at hput
    have hnext := ih (fun v hv => hxs v (List.mem_cons_of_mem _ hv)) (pre ++ [x]) hput
    rw [List.append_assoc, List.length_append] at hnext
    rw [toLuaElements, hpush, h.stack]
    exact hnext

/-- The loop over the members of an object. -/
theorem toLuaMembers_filled {es : List (Bytes × Value)} (hes : ∀ e ∈ es, Pushes e.2) (pre : List (Bytes × Value))
    (hnodup : ((pre ++ es).map Prod.fst).Nodup) (h : Filled heap₀ ref rest (fields (.object pre)) s) :
    Filled heap₀ ref rest (fields (.object (pre ++ es))) (toLuaMembers es s) := by
  induction es generalizing pre s with
  | nil => simpa [toLuaMembers] using h
  | cons e es ih =>
    obtain ⟨heap, y, hpush, hsame, hy, hrep⟩ := hes e List.mem_cons_self (s.push (.string e.1))
    have hkey : Key.string e.1 ∉ (fields (.object pre)).map Prod.fst := by
      simp only [fields, List.map_map, List.mem_map, not_exists, not_and]
      rintro z hz heq
      simp only [Function.comp_apply, Key.string.injEq] at heq
      rw [List.map_append, List.nodup_append] at hnodup
      exact hnodup.2.2 z.1 (List.mem_map_of_mem hz) e.1 (List.mem_map_of_mem List.mem_cons_self) heq
    have hone : fields (.object (pre ++ [e])) = fields (.object pre) ++ [(.string e.1, e.2)] := by
      simp [fields]
    have hput := h.put hkey hsame hy hrep
    rw [← hone] at hput
    have hnext := ih (fun e he => hes e (List.mem_cons_of_mem _ he)) (pre ++ [e]) (by rwa [List.append_assoc]) hput
    rw [List.append_assoc] at hnext
    rw [toLuaMembers, hpush]
    simp only [LuaState.push, h.stack]
    exact hnext

theorem nodup_keys {es : List (Bytes × Value)} (h : es.Pairwise fun a b => keyLess a.1 b.1 = true) :
    (es.map Prod.fst).Nodup := by
  refine List.pairwise_map.mpr (h.imp fun {a b} hab heq => ?_)
  rw [heq, keyLess, decide_eq_true_eq] at hab
  exact List.lt_irrefl _ hab

/-- `to_lua` of a value without null or an empty object. -/
theorem Solid.pushes {v : Value} (h : Solid v) : Pushes v := by
  induction h with
  | bool b => exact fun s => ⟨s.heap, .boolean b, rfl, fun _ _ => rfl, nofun, .bool b⟩
  | number d => exact fun s => ⟨s.heap, .number d, rfl, fun _ _ => rfl, nofun, .number d⟩
  | string t => exact fun s => ⟨s.heap, .string t, rfl, fun _ _ => rfl, nofun, .string t⟩
  | @array xs _ ih =>
    intro s
    obtain ⟨hstack, _, hbelow, t, ht, hkeys, hfields⟩ := toLuaElements_filled ih [] (createtable_filled s)
    refine ⟨_, .table s.heap.length, ?_, hbelow, nofun, .array (Nat.le_refl _) ht hkeys hfields⟩
    rw [toLua, ← hstack]
    rfl
  | @object es _ hsorted _ ih =>
    intro s
    obtain ⟨hstack, _, hbelow, t, ht, hkeys, hfields⟩ :=
      toLuaMembers_filled ih [] (nodup_keys hsorted) (createtable_filled s)
    refine ⟨_, .table s.heap.length, ?_, hbelow, nofun, .object (Nat.le_refl _) ht hkeys hfields⟩
    rw [toLua, ← hstack]

/-! ## Reading a table -/

theorem Table.get_of_mem {t : Table} {key : Key} {y : LuaValue} (h : (key, y) ∈ t.entries) : t.get key = y := by
  have hlookup : ∀ {l : List (Key × LuaValue)}, (l.map Prod.fst).Nodup → (key, y) ∈ l → l.lookup key = some y := by
    intro l hl hmem
    induction l with
    | nil => cases hmem
    | cons e l ih =>
      obtain ⟨hnot, hl⟩ := List.nodup_cons.mp hl
      rcases List.mem_cons.mp hmem with rfl | hmem
      · simp
      · have hne : (key == e.1) = false := by
          rw [beq_eq_false_iff_ne]
          rintro rfl
          exact hnot (List.mem_map.mpr ⟨_, hmem, rfl⟩)
        rw [List.lookup_cons, hne]
        exact ih hl hmem
  rw [Table.get, hlookup t.nodup h]
  rfl

theorem Table.get_eq_nil {t : Table} {key : Key} (h : key ∉ t.entries.map Prod.fst) : t.get key = .nil := by
  have hlookup : t.entries.lookup key = none := by
    rw [List.lookup_eq_none_iff]
    rintro e he
    rw [bne_iff_ne]
    rintro rfl
    exact h (List.mem_map_of_mem he)
  rw [Table.get, hlookup]
  rfl

theorem Table.get_ne_nil {t : Table} {key : Key} (h : key ∈ t.entries.map Prod.fst) : t.get key ≠ .nil := by
  obtain ⟨e, he, rfl⟩ := List.mem_map.mp h
  rw [Table.get_of_mem he]
  exact t.not_nil e he

/-- The length of a table whose indices are those of a list. -/
theorem Semantics.objlen_eq (sem : Semantics) {t : Table} {n : Nat}
    (h : ∀ i : Nat, .index i ∈ t.entries.map Prod.fst ↔ 1 ≤ i ∧ i ≤ n) : sem.objlen t = n := by
  have hget : ∀ i : Nat, t.get (.index i) = .nil ↔ ¬(1 ≤ i ∧ i ≤ n) := fun i => by
    rw [← h i]
    exact ⟨fun hnil hmem => Table.get_ne_nil hmem hnil, Table.get_eq_nil⟩
  obtain ⟨hlast, hnext⟩ := sem.border t
  have hnext' := (hget (sem.objlen t + 1)).mp (by simpa using hnext)
  rcases hlast with hlast | hlast
  · omega
  · have := not_not.mp (mt (hget _).mpr hlast)
    omega

attribute [local simp] fromLua readElements readMembers assign

/-- Given fuel enough, `from_lua` gives a value wherever the Lua value stands on the stack. -/
def Reads (sem : Semantics) (heap : List Table) (x : LuaValue) (v : Value) : Prop :=
  ∃ fuel₀, ∀ fuel, fuel₀ ≤ fuel → ∀ stack k, 1 ≤ k → stack[k - 1]? = some x →
    fromLua sem heap fuel stack k = some (.ret stack v)

theorem Reads.of_step {sem : Semantics} {heap : List Table} {x : LuaValue} {v : Value}
    (h : ∀ n stack k, stack[k - 1]? = some x → fromLua sem heap (n + 1) stack k = some (.ret stack v)) :
    Reads sem heap x v := by
  refine ⟨1, fun fuel hf stack k _ hx => ?_⟩
  obtain ⟨n, rfl⟩ : ∃ n, fuel = n + 1 := ⟨fuel - 1, by omega⟩
  exact h n stack k hx

/-- Fuel enough for each of a list is enough for all. -/
theorem common_fuel {α : Type} {P : α → Nat → Prop} {l : List α}
    (h : ∀ a ∈ l, ∃ fuel₀, ∀ fuel, fuel₀ ≤ fuel → P a fuel) :
    ∃ fuel₀, ∀ fuel, fuel₀ ≤ fuel → ∀ a ∈ l, P a fuel := by
  induction l with
  | nil => exact ⟨0, fun _ _ a ha => absurd ha List.not_mem_nil⟩
  | cons a l ih =>
    obtain ⟨f₁, h₁⟩ := h a List.mem_cons_self
    obtain ⟨f₂, h₂⟩ := ih fun b hb => h b (List.mem_cons_of_mem _ hb)
    refine ⟨max f₁ f₂, fun fuel hf b hb => ?_⟩
    rcases List.mem_cons.mp hb with rfl | hb
    · exact h₁ fuel (by omega)
    · exact h₂ fuel (by omega) b hb

theorem reads_all {sem : Semantics} {heap : List Table} {l : List (LuaValue × Value)}
    (h : ∀ p ∈ l, Reads sem heap p.1 p.2) :
    ∃ fuel₀, ∀ fuel, fuel₀ ≤ fuel → ∀ p ∈ l, ∀ stack k, 1 ≤ k → stack[k - 1]? = some p.1 →
      fromLua sem heap fuel stack k = some (.ret stack p.2) :=
  common_fuel h

theorem tableAt_eq {heap : List Table} {stack : List LuaValue} {k ref : Nat} {t : Table} (hk : 1 ≤ k)
    (hx : stack[k - 1]? = some (.table ref)) (ht : heap[ref]? = some t) :
    tableAt heap stack (stack.length - k + 1) = t := by
  have hlt := (List.getElem?_eq_some_iff.mp hx).1
  have hpos : stack.length - (stack.length - k + 1) = k - 1 := by omega
  rw [tableAt, hpos, hx]
  simp only [List.getD, ht, Option.getD_some]

theorem readElements_eq {heap : List Table} {convert : List LuaValue → Nat → Option (Exit Value)} {absIdx : Nat}
    {stack : List LuaValue} {items : List (Nat × Value)}
    (h : ∀ p ∈ items, convert ((tableAt heap stack absIdx).get (.index p.1) :: stack) 1 =
      some (.ret ((tableAt heap stack absIdx).get (.index p.1) :: stack) p.2)) (arr : List Value) :
    readElements heap convert absIdx (items.map Prod.fst) arr stack =
      some (.ret stack (.array (arr ++ items.map Prod.snd))) := by
  induction items generalizing arr with
  | nil => simp
  | cons p items ih =>
    rw [List.map_cons, readElements, h p List.mem_cons_self]
    simp only [List.tail_cons, ih (fun q hq => h q (List.mem_cons_of_mem _ hq)) (arr ++ [p.2]), List.append_assoc,
      List.singleton_append, List.map_cons]

/-- An object as `FlatMap` keeps it. -/
abbrev SortedKeys (es : List (Bytes × Value)) : Prop := es.Pairwise fun a b => keyLess a.1 b.1 = true

theorem keyLess_trans {a b c : Bytes} (hab : keyLess a b = true) (hbc : keyLess b c = true) : keyLess a c = true :=
  decide_eq_true (List.lt_trans (of_decide_eq_true hab) (of_decide_eq_true hbc))

theorem keyLess_total {a b : Bytes} (hab : keyLess a b = false) (hne : a ≠ b) : keyLess b a = true := by
  by_contra hba
  have heq := List.le_antisymm (List.not_lt.mp (of_decide_eq_false (Bool.not_eq_true _ ▸ hba)))
    (List.not_lt.mp (of_decide_eq_false hab))
  exact hne (List.map_injective_iff.mpr (fun x y h => UInt8.toNat_inj.mp h) heq)

theorem mem_assign {key : Bytes} {v : Value} {obj : List (Bytes × Value)} (h : SortedKeys obj) (p : Bytes × Value) :
    p ∈ assign key v obj ↔ p = (key, v) ∨ p ∈ obj ∧ p.1 ≠ key := by
  induction obj with
  | nil => simp
  | cons e es ih =>
    obtain ⟨hlt, hes⟩ := List.pairwise_cons.mp h
    have hirrefl : ∀ a, keyLess a a = false := fun a => decide_eq_false (List.lt_irrefl _)
    rw [assign]
    split
    · next hless =>
      have hne : e.1 ≠ key := fun heq => by simp [heq, hirrefl] at hless
      rw [List.mem_cons, ih hes, List.mem_cons]
      constructor
      · rintro (rfl | rfl | ⟨hp, hpk⟩)
        · exact .inr ⟨.inl rfl, hne⟩
        · exact .inl rfl
        · exact .inr ⟨.inr hp, hpk⟩
      · rintro (rfl | ⟨rfl | hp, hpk⟩)
        · exact .inr (.inl rfl)
        · exact .inl rfl
        · exact .inr (.inr ⟨hp, hpk⟩)
    · next hless =>
      have hbeyond : ∀ q ∈ es, q.1 ≠ key := fun q hq heq => by
        have := hlt q hq
        rw [heq] at this
        exact hless this
      split
      · next heq =>
        rw [List.mem_cons, List.mem_cons]
        constructor
        · rintro (rfl | hp)
          · exact .inl rfl
          · exact .inr ⟨.inr hp, hbeyond p hp⟩
        · rintro (rfl | ⟨rfl | hp, hpk⟩)
          · exact .inl rfl
          · exact absurd heq hpk
          · exact .inr hp
      · next hne =>
        rw [List.mem_cons, List.mem_cons]
        constructor
        · rintro (rfl | rfl | hp)
          · exact .inl rfl
          · exact .inr ⟨.inl rfl, hne⟩
          · exact .inr ⟨.inr hp, hbeyond p hp⟩
        · rintro (rfl | ⟨hp, _⟩)
          · exact .inl rfl
          · exact .inr hp

theorem assign_sorted {key : Bytes} {v : Value} {obj : List (Bytes × Value)} (h : SortedKeys obj) :
    SortedKeys (assign key v obj) := by
  induction obj with
  | nil => exact List.pairwise_singleton _ _
  | cons e es ih =>
    obtain ⟨hlt, hes⟩ := List.pairwise_cons.mp h
    rw [assign]
    split
    · next hless =>
      refine List.pairwise_cons.mpr ⟨fun p hp => ?_, ih hes⟩
      rcases (mem_assign hes p).mp hp with rfl | ⟨hp, _⟩
      · exact hless
      · exact hlt p hp
    · next hless =>
      split
      · next heq =>
        refine List.pairwise_cons.mpr ⟨fun p hp => ?_, hes⟩
        have := hlt p hp
        rwa [heq] at this
      · next hne =>
        have hkey : keyLess key e.1 = true := keyLess_total (by simpa using hless) hne
        refine List.pairwise_cons.mpr ⟨fun p hp => ?_, h⟩
        rcases List.mem_cons.mp hp with rfl | hp
        · exact hkey
        · exact keyLess_trans hkey (hlt p hp)

/-- Objects as `FlatMap` keeps them are told apart by their entries. -/
theorem sortedKeys_ext {es obj : List (Bytes × Value)} (hes : SortedKeys es) (hobj : SortedKeys obj)
    (h : ∀ p, p ∈ obj ↔ p ∈ es) : obj = es := by
  have hnodup : ∀ {l : List (Bytes × Value)}, SortedKeys l → l.Nodup := fun hl => List.Nodup.of_map _ (nodup_keys hl)
  have hperm : obj.Perm es := (List.perm_ext_iff_of_nodup (hnodup hobj) (hnodup hes)).mpr h
  refine hperm.eq_of_pairwise (fun a b _ _ hab hba => ?_) hobj hes
  rw [Json.keyLess_asymm hab] at hba
  exact absurd hba Bool.false_ne_true

/-- The loop over the fields, whatever their order: the entries that are left are assigned. -/
theorem readMembers_eq {convert : List LuaValue → Nat → Option (Exit Value)} {es : List (Bytes × Value)}
    {stack : List LuaValue} {l : List (Key × LuaValue)}
    (h : ∀ e ∈ l, ∃ p ∈ es, e.1 = .string p.1 ∧
      convert (e.2 :: .string p.1 :: stack) 1 = some (.ret (e.2 :: .string p.1 :: stack) p.2))
    (hes : (es.map Prod.fst).Nodup) {obj : List (Bytes × Value)} (hobj : SortedKeys obj) (hsub : ∀ p ∈ obj, p ∈ es)
    (x : LuaValue) :
    ∃ obj', readMembers convert l obj (x :: stack) =
        some (.ret stack (if obj'.isEmpty then .array [] else .object obj')) ∧ SortedKeys obj' ∧
      ∀ p, p ∈ obj' ↔ p ∈ obj ∨ p ∈ es ∧ .string p.1 ∈ l.map Prod.fst := by
  induction l generalizing obj x with
  | nil => exact ⟨obj, rfl, hobj, fun p => by simp⟩
  | cons e l ih =>
    obtain ⟨p, hp, hkey, hread⟩ := h e List.mem_cons_self
    obtain ⟨key, y⟩ := e
    obtain rfl : key = .string p.1 := hkey
    have hinj : ∀ q ∈ es, q.1 = p.1 → q = p := fun q hq heq => List.inj_on_of_nodup_map hes hq hp heq
    have hsub' : ∀ q ∈ assign p.1 p.2 obj, q ∈ es := fun q hq => by
      rcases (mem_assign hobj q).mp hq with rfl | ⟨hq, _⟩
      · exact hp
      · exact hsub q hq
    obtain ⟨obj', hrest, hsorted, hmem⟩ :=
      ih (fun e he => h e (List.mem_cons_of_mem _ he)) (assign_sorted hobj) hsub' (.string p.1)
    refine ⟨obj', ?_, hsorted, fun q => ?_⟩
    · simp only [readMembers, List.tail_cons, Key.value, hread]
      exact hrest
    · rw [hmem, mem_assign hobj, List.map_cons, List.mem_cons]
      constructor
      · rintro ((rfl | ⟨hq, _⟩) | ⟨hq, hl⟩)
        · exact .inr ⟨hp, .inl rfl⟩
        · exact .inl hq
        · exact .inr ⟨hq, .inr hl⟩
      · rintro (hq | ⟨hq, heq | hl⟩)
        · by_cases hqp : q.1 = p.1
          · exact .inl (.inl (hinj q (hsub q hq) hqp))
          · exact .inl (.inr ⟨hq, hqp⟩)
        · rw [Key.string.injEq] at heq
          exact .inl (.inl (hinj q hq heq))
        · exact .inr ⟨hq, hl⟩

theorem exists_mem_zip {entries : List (Key × LuaValue)} {items : List (Key × Value)}
    (hkeys : entries.map Prod.fst = items.map Prod.fst) {e : Key × LuaValue} (he : e ∈ entries) :
    ∃ item ∈ items, item.1 = e.1 ∧ (e, item) ∈ entries.zip items := by
  obtain ⟨i, hi, rfl⟩ := List.getElem_of_mem he
  have hi' : i < items.length := by
    have hlen : entries.length = items.length := by simpa using congrArg List.length hkeys
    omega
  have hkey : (entries.map Prod.fst)[i]? = (items.map Prod.fst)[i]? := by rw [hkeys]
  rw [List.getElem?_map, List.getElem?_map, List.getElem?_eq_getElem hi, List.getElem?_eq_getElem hi'] at hkey
  have hzip : i < (entries.zip items).length := by rw [List.length_zip]; omega
  refine ⟨items[i], List.getElem_mem hi', (Option.some.inj hkey).symm, ?_⟩
  rw [← List.getElem_zip (h := hzip)]
  exact List.getElem_mem hzip

/-- A field as the table has it, with the value it stands for. -/
theorem Table.get_mem_zip {t : Table} {items : List (Key × Value)}
    (hkeys : t.entries.map Prod.fst = items.map Prod.fst) (hnodup : (items.map Prod.fst).Nodup) {item : Key × Value}
    (hitem : item ∈ items) : ((item.1, t.get item.1), item) ∈ t.entries.zip items := by
  have hmem : item.1 ∈ t.entries.map Prod.fst := hkeys ▸ List.mem_map_of_mem hitem
  obtain ⟨e, he, hkey⟩ := List.mem_map.mp hmem
  obtain ⟨item', hitem', hkey', hzip⟩ := exists_mem_zip hkeys he
  have hget : t.get e.1 = e.2 := Table.get_of_mem he
  obtain rfl : item' = item := List.inj_on_of_nodup_map hnodup hitem' hitem (hkey'.trans hkey)
  rw [← hkey, hget]
  exact hzip

/-- The length tells an array, and the loop gives its elements in order. -/
theorem reads_array {sem : Semantics} {heap : List Table} {ref : Nat} {t : Table} {xs : List Value}
    (ht : heap[ref]? = some t) (hkeys : t.entries.map Prod.fst = (fields (.array xs)).map Prod.fst)
    (hfields : ∀ p ∈ t.entries.zip (fields (.array xs)), Reads sem heap p.1.2 p.2.2) :
    Reads sem heap (.table ref) (.array xs) := by
  have hlen : sem.objlen t = xs.length := sem.objlen_eq fun i => by
    rw [hkeys]
    simp only [fields, List.map_map, List.mem_map, Function.comp_apply, Key.index.injEq, Prod.exists,
      List.mem_zipIdx_iff_getElem?]
    constructor
    · rintro ⟨v, j, hj, hi⟩
      have := (List.getElem?_eq_some_iff.mp hj).1
      omega
    · rintro ⟨h1, hn⟩
      exact ⟨xs[i - 1], i - 1, List.getElem?_eq_getElem (by omega), by omega⟩
  have hmem : ∀ p ∈ (List.range' 1 xs.length).zip xs,
      ((Key.index p.1, t.get (.index p.1)), (Key.index p.1, p.2)) ∈ t.entries.zip (fields (.array xs)) := by
    intro p hp
    refine @Table.get_mem_zip t _ hkeys (hkeys ▸ t.nodup) (.index p.1, p.2) ?_
    obtain ⟨i, hi, rfl⟩ := List.getElem_of_mem hp
    have hix : i < xs.length := by simpa using hi
    refine List.mem_map.mpr ⟨(xs[i], i), List.mem_zipIdx_iff_getElem?.mpr (List.getElem?_eq_getElem hix), ?_⟩
    simp [List.getElem_zip, Int.add_comm]
  obtain ⟨fuel₀, hread⟩ := @reads_all sem heap (((List.range' 1 xs.length).zip xs).map fun p => (t.get (.index p.1), p.2))
    fun q hq => by
      obtain ⟨p, hp, rfl⟩ := List.mem_map.mp hq
      exact hfields _ (hmem p hp)
  refine ⟨fuel₀ + 1, fun fuel hf stack k hk hx => ?_⟩
  obtain ⟨n, rfl⟩ : ∃ n, fuel = n + 1 := ⟨fuel - 1, by omega⟩
  have htable := tableAt_eq hk hx ht
  have hindices : ((List.range' 1 xs.length).zip xs).map Prod.fst = List.range' 1 xs.length :=
    List.map_fst_zip (by simp)
  have hvalues : ((List.range' 1 xs.length).zip xs).map Prod.snd = xs := List.map_snd_zip (by simp)
  simp only [fromLua, hx, htable, hlen]
  split
  · have helements := @readElements_eq heap (fromLua sem heap n) (stack.length - k + 1) stack
      ((List.range' 1 xs.length).zip xs) (fun p hp => by
        rw [htable]
        exact hread n (Nat.le_of_succ_le_succ hf) _ (List.mem_map_of_mem hp) _ 1 (Nat.le_refl _) rfl) []
    rw [hindices, hvalues] at helements
    exact helements
  · next hzero =>
    obtain rfl : xs = [] := List.length_eq_zero_iff.mp (by omega)
    have hentries : t.entries = [] := List.map_eq_nil_iff.mp hkeys
    have horder : sem.order t = [] := (hentries ▸ sem.perm t).eq_nil
    rw [horder]
    rfl

/-- A table with string keys has length zero, and the loop gives its members in any order. -/
theorem reads_object {sem : Semantics} {heap : List Table} {ref : Nat} {t : Table} {es : List (Bytes × Value)}
    (hne : es ≠ []) (hsorted : SortedKeys es) (ht : heap[ref]? = some t)
    (hkeys : t.entries.map Prod.fst = (fields (.object es)).map Prod.fst)
    (hfields : ∀ p ∈ t.entries.zip (fields (.object es)), Reads sem heap p.1.2 p.2.2) :
    Reads sem heap (.table ref) (.object es) := by
  have hlen : sem.objlen t = 0 := sem.objlen_eq fun i => by
    rw [hkeys]
    simp only [fields, List.map_map, List.mem_map, Function.comp_apply, reduceCtorEq, and_false, exists_false,
      false_iff]
    omega
  obtain ⟨fuel₀, hread⟩ := @reads_all sem heap ((t.entries.zip (fields (.object es))).map fun p => (p.1.2, p.2.2))
    fun q hq => by
      obtain ⟨p, hp, rfl⟩ := List.mem_map.mp hq
      exact hfields p hp
  have hmem : ∀ e ∈ sem.order t, ∃ p ∈ es, e.1 = .string p.1 ∧
      (e, (Key.string p.1, p.2)) ∈ t.entries.zip (fields (.object es)) := fun e he => by
    obtain ⟨item, hitem, hkey, hzip⟩ := exists_mem_zip hkeys ((sem.perm t).mem_iff.mp he)
    obtain ⟨p, hp, rfl⟩ := List.mem_map.mp hitem
    exact ⟨p, hp, hkey.symm, hzip⟩
  refine ⟨fuel₀ + 1, fun fuel hf stack k hk hx => ?_⟩
  obtain ⟨n, rfl⟩ : ∃ n, fuel = n + 1 := ⟨fuel - 1, by omega⟩
  simp only [fromLua, hx, tableAt_eq hk hx ht, hlen, Nat.lt_irrefl, if_false]
  obtain ⟨obj, hloop, hobj, hall⟩ := @readMembers_eq (fromLua sem heap n) es stack (sem.order t)
    (fun e he => by
      obtain ⟨p, hp, hkey, hzip⟩ := hmem e he
      exact ⟨p, hp, hkey, hread n (Nat.le_of_succ_le_succ hf) _ (List.mem_map_of_mem hzip) _ 1 (Nat.le_refl _) rfl⟩)
    (nodup_keys hsorted) [] List.Pairwise.nil (fun p hp => absurd hp List.not_mem_nil) .nil
  have hobj' : obj = es := sortedKeys_ext hsorted hobj fun p => by
    rw [hall]
    refine ⟨fun hp => (hp.resolve_left List.not_mem_nil).1, fun hp => .inr ⟨hp, ?_⟩⟩
    rw [((sem.perm t).map Prod.fst).mem_iff, hkeys]
    exact List.mem_map.mpr ⟨(.string p.1, p.2), List.mem_map.mpr ⟨p, hp, rfl⟩, rfl⟩
  rw [hloop, hobj', if_neg (by simpa using hne)]

theorem Represents.reads {sem : Semantics} {heap : List Table} {v : Value} (hv : v = .null ∨ Solid v) {lo : Nat}
    {x : LuaValue} (h : Represents heap lo x v) : Reads sem heap x v := by
  induction h with
  | null => exact .of_step fun n stack k hx => by simp [hx]
  | bool b => exact .of_step fun n stack k hx => by simp [hx]
  | number d => exact .of_step fun n stack k hx => by simp [hx]
  | string t => exact .of_step fun n stack k hx => by simp [hx]
  | @array _ _ _ xs _ ht hkeys _ ih =>
    cases hv.resolve_left nofun with
    | array hxs =>
      refine reads_array ht hkeys fun p hp => ih p hp (.inr ?_)
      obtain ⟨x, hx, hp2⟩ := List.mem_map.mp (List.of_mem_zip hp).2
      rw [← hp2]
      exact hxs _ (List.fst_mem_of_mem_zipIdx hx)
  | @object _ _ _ es _ ht hkeys _ ih =>
    cases hv.resolve_left nofun with
    | object hne hsorted hes =>
      refine reads_object hne hsorted ht hkeys fun p hp => ih p hp (.inr ?_)
      obtain ⟨e, he, hp2⟩ := List.mem_map.mp (List.of_mem_zip hp).2
      rw [← hp2]
      exact hes e he

theorem exists_border (t : Table) : ∃ n : Nat, t.get (.index ((n : Int) + 1)) = .nil := by
  have hbound : ∀ l : List Key, ∃ b : Nat, ∀ i : Nat, .index i ∈ l → i ≤ b := by
    intro l
    induction l with
    | nil => exact ⟨0, fun _ h => absurd h List.not_mem_nil⟩
    | cons key l ih =>
      obtain ⟨b, hb⟩ := ih
      refine ⟨max b (match key with | .index i => i.toNat | _ => 0), fun i hi => ?_⟩
      rcases List.mem_cons.mp hi with rfl | hi
      · simp
      · have := hb i hi
        omega
  obtain ⟨b, hb⟩ := hbound (t.entries.map Prod.fst)
  refine ⟨b, Table.get_eq_nil fun hmem => ?_⟩
  have := hb (b + 1) (by simpa using hmem)
  omega

/-- Tables whose length is their first border, and that go through their fields as they hold them. -/
def firstBorder : Semantics where
  objlen t := if t.get (.index 1) = .nil then 0 else Nat.find (exists_border t)
  border t := by
    split
    · next h => exact ⟨.inl rfl, h⟩
    · next h =>
      refine ⟨.inr fun hnil => ?_, Nat.find_spec (exists_border t)⟩
      have hpos : Nat.find (exists_border t) ≠ 0 := fun h0 => h (by simpa [h0] using Nat.find_spec (exists_border t))
      refine Nat.find_min (exists_border t) (m := Nat.find (exists_border t) - 1) (by omega) ?_
      rwa [← Nat.cast_add_one, Nat.sub_add_cancel (Nat.pos_of_ne_zero hpos)]
  order := Table.entries
  perm _ := .refl _

/-- What `to_lua` pushed reads as the value it pushed. -/
theorem fromLua_toLua (sem : Semantics) {v : Value} (hv : v = .null ∨ Solid v) (s : LuaState) :
    ∃ fuel₀, ∀ fuel, fuel₀ ≤ fuel →
      fromLua sem (toLua v s).heap fuel (toLua v s).stack 1 = some (.ret (toLua v s).stack v) := by
  obtain ⟨x, hx, hrep⟩ : ∃ x, (toLua v s).stack[0]? = some x ∧ Represents (toLua v s).heap s.heap.length x v := by
    rcases hv with rfl | hv
    · exact ⟨.nil, rfl, .null⟩
    · obtain ⟨heap, y, hpush, _, _, hrep⟩ := hv.pushes s
      rw [hpush]
      exact ⟨y, rfl, hrep⟩
  have hreads : Reads sem (toLua v s).heap x v := hrep.reads hv
  obtain ⟨fuel₀, hread⟩ := hreads
  exact ⟨fuel₀, fun fuel hf => hread fuel hf _ 1 (Nat.le_refl _) hx⟩

theorem fromLua_toLua_nested :
    let v := Value.object [(Json.token "1", .array [.object [(Json.token "2", .bool true)], .array []]),
      (Json.token "a", .string (Json.token ""))]
    ∃ fuel₀, ∀ fuel, fuel₀ ≤ fuel →
      fromLua firstBorder (toLua v ⟨[], []⟩).heap fuel (toLua v ⟨[], []⟩).stack 1 =
        some (.ret (toLua v ⟨[], []⟩).stack v) := by
  refine fromLua_toLua firstBorder (.inr (.object (by simp) (by decide) fun e he => ?_)) ⟨[], []⟩
  simp only [List.mem_cons, List.not_mem_nil, or_false] at he
  rcases he with rfl | rfl
  · refine .array fun x hx => ?_
    simp only [List.mem_cons, List.not_mem_nil, or_false] at hx
    rcases hx with rfl | rfl
    · exact .object (by simp) (by decide) fun e he => by
        obtain rfl := List.mem_singleton.mp he
        exact .bool true
    · exact .array fun x hx => absurd hx List.not_mem_nil
  · exact .string _

end Pineapple.Lua
