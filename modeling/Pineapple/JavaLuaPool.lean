import Pineapple.Lib.Binary64
import Pineapple.Lib.SortedMap
import Mathlib.Algebra.BigOperators.Group.List.Basic
import Mathlib.Algebra.Ring.Int.Defs
import Mathlib.Algebra.Ring.Nat
import Mathlib.Data.List.Count
import Mathlib.Data.List.Nodup
import Mathlib.Data.String.Basic
import Mathlib.Logic.Function.Basic

/-! # The pool of Lua states (`LuaPool` of `TransformByLua.java`)

Nothing is locked: every access to what the executions share is a step of its own, and executions and calls of `close`
take their steps in any order. A `Globals` object is named by the number of its creation. -/

namespace Pineapple.JavaLuaPool

variable {N K L X R : Type} [LinearOrder N]

/-! ## Globals -/

/-- A value over the strings `N` of Lua; a reference is a table, a function, a userdata or a thread. -/
inductive LuaValue (N : Type) where
  | nil
  | boolean (b : Bool)
  | number (d : Binary64)
  | string (s : N)
  | reference (id : Nat)

def LuaValue.isnil : LuaValue N → Bool
  | .nil => true
  | _ => false

/-- The entries of `_G` under strings, and what else its scripts reach: `kept` is its entries under other keys and the
fields of the tables that the script made as it was loaded, `rest` the fields of the libraries' tables, the metatables
and the variables of functions. -/
structure Globals (N K L : Type) [LinearOrder N] where
  named : SortedMap N (LuaValue N)
  not_nil : ∀ name v, named.find? name = some v → v.isnil = false
  kept : K
  rest : L

def Globals.rawget (g : Globals N K L) (name : N) : LuaValue N := (g.named.find? name).getD .nil

def Globals.rawset (g : Globals N K L) (name : N) (v : LuaValue N) : Globals N K L where
  named := if v.isnil then g.named.erase name else g.named.insert name v
  not_nil name' v' h := by
    split at h
    · rw [SortedMap.find?_erase] at h
      split at h
      · cases h
      · exact g.not_nil name' v' h
    · next hv =>
      rw [SortedMap.find?_insert] at h
      split at h
      · cases h
        exact Bool.eq_false_iff.mpr hv
      · exact g.not_nil name' v' h
  kept := g.kept
  rest := g.rest

/-- The strings of Lua, the metamethods of `_G`, and the operator's script: `load` is what the n-th creation of a state
makes, where it does not throw, and `execute` what an execution returns or throws and leaves. -/
structure Env (N K L X R : Type) [LinearOrder N] where
  tojstring : N → String
  valueOf : String → N
  index : L → Option (String → Globals N K L → Option (LuaValue N × Globals N K L))
  newindex : L → Option (String → LuaValue N → Globals N K L → Option (Globals N K L))
  first : Globals N K L
  load : Nat → Option (Globals N K L)
  execute : X → Globals N K L → R × Globals N K L

namespace Env

/-- `Globals.get`: none where a metamethod throws. -/
def get (env : Env N K L X R) (name : String) (g : Globals N K L) : Option (LuaValue N × Globals N K L) :=
  if (g.rawget (env.valueOf name)).isnil then
    match env.index g.rest with
    | none => some (.nil, g)
    | some index => index name g
  else some (g.rawget (env.valueOf name), g)

def set (env : Env N K L X R) (name : String) (v : LuaValue N) (g : Globals N K L) : Option (Globals N K L) :=
  if (g.rawget (env.valueOf name)).isnil then
    match env.newindex g.rest with
    | none => some (g.rawset (env.valueOf name) v)
    | some newindex => newindex name v g
  else some (g.rawset (env.valueOf name) v)

def setGlobal (env : Env N K L X R) (name : String) (v : LuaValue N) (g : Globals N K L) : Option (Globals N K L) :=
  match v, g.rawget (env.valueOf name) with
  | .string _, .number _ => some ((g.rawset (env.valueOf name) .nil).rawset (env.valueOf name) v)
  | _, _ => env.set name v g

/-- The keys, as often as a string is decoded to them. -/
def snapshotKeys (env : Env N K L X R) (g : Globals N K L) : List String := g.named.keys.map env.tojstring

def baselineKeys (env : Env N K L X R) : List String := env.snapshotKeys env.first

def snapshotBaselineValues (env : Env N K L X R) :
    List String → Globals N K L → Option (SortedMap String (LuaValue N) × Globals N K L)
  | [], g => some (∅, g)
  | name :: names, g => do
    let (v, g) ← env.get name g
    let (snap, g) ← env.snapshotBaselineValues names g
    return (snap.insert name v, g)

def removeOthers (env : Env N K L X R) : List String → Globals N K L → Option (Globals N K L)
  | [], g => some g
  | name :: names, g =>
    if name ∈ env.baselineKeys then env.removeOthers names g else env.set name .nil g >>= env.removeOthers names

def restore (env : Env N K L X R) : List (String × LuaValue N) → Globals N K L → Option (Globals N K L)
  | [], g => some g
  | (name, v) :: snap, g => env.setGlobal name v g >>= env.restore snap

/-- `resetToBaseline`, with the orders in which its loops run. -/
def resetToBaseline (env : Env N K L X R) (names : List String) (snap : List (String × LuaValue N))
    (g : Globals N K L) : Option (Globals N K L) :=
  env.removeOthers names g >>= env.restore snap

end Env

/-- The order in which a loop over a hash set of these strings may run. -/
structure Ranges (keys names : List String) : Prop where
  nodup : names.Nodup
  mem_iff : ∀ name, name ∈ names ↔ name ∈ keys

/-! ## The pool -/

structure Shared (N K L : Type) [LinearOrder N] where
  pool : List Nat := [0]
  globals : Nat → Globals N K L
  snapshots : Nat → Option (SortedMap String (LuaValue N)) := fun _ => none
  closed : Bool := false
  borrowCount : Int := 0
  returnCount : Int := 0
  createCount : Nat := 1
  reuseCount : Nat := 0
  activeCount : Int := 0

/-- Where an execution or a call of `close` stands. -/
inductive Thread
  | borrow
  | countBorrow
  | countActive
  | poll
  | create
  | load (vm : Nat)
  | snapshot (vm : Nat)
  | execute (vm : Nat)
  | countReturn (vm : Nat)
  | countInactive (vm : Nat)
  | check (vm : Nat)
  | reset (vm : Nat)
  | offer (vm : Nat)
  | close
  | clear
deriving DecidableEq

/-- An execution on a state: what it depends on besides, and what it returned or threw. -/
structure Execution (X R : Type) where
  vm : Nat
  input : X
  result : R

inductive Thread.Step (env : Env N K L X R) :
    Shared N K L → Thread → Option (Execution X R) → Shared N K L → List Thread → Prop
  -- `borrow`
  | closed {sh} : sh.closed = true → Step env sh .borrow none sh []
  | opened {sh} : sh.closed = false → Step env sh .borrow none sh [.countBorrow]
  | countBorrow {sh} : Step env sh .countBorrow none { sh with borrowCount := sh.borrowCount + 1 } [.countActive]
  | countActive {sh} : Step env sh .countActive none { sh with activeCount := sh.activeCount + 1 } [.poll]
  | poll {sh vm pool} : sh.pool = vm :: pool →
      Step env sh .poll none { sh with pool, reuseCount := sh.reuseCount + 1 } [.snapshot vm]
  | empty {sh} : sh.pool = [] → Step env sh .poll none sh [.create]
  | create {sh} : Step env sh .create none { sh with createCount := sh.createCount + 1 } [.load sh.createCount]
  | load {sh vm g} : env.load vm = some g →
      Step env sh (.load vm) none { sh with globals := Function.update sh.globals vm g } [.snapshot vm]
  | loadFails {sh vm} : env.load vm = none → Step env sh (.load vm) none sh []
  | snapshot {sh vm names snap g} : Ranges env.baselineKeys names →
      env.snapshotBaselineValues names (sh.globals vm) = some (snap, g) →
      Step env sh (.snapshot vm) none
        { sh with
          globals := Function.update sh.globals vm g
          snapshots := Function.update sh.snapshots vm (some snap) } [.execute vm]
  | snapshotFails {sh vm names} : Ranges env.baselineKeys names →
      env.snapshotBaselineValues names (sh.globals vm) = none → Step env sh (.snapshot vm) none sh []
  | execute {sh vm x} : Step env sh (.execute vm) (some ⟨vm, x, (env.execute x (sh.globals vm)).1⟩)
      { sh with globals := Function.update sh.globals vm (env.execute x (sh.globals vm)).2 } [.countReturn vm]
  -- `returnState`
  | countReturn {sh vm} :
      Step env sh (.countReturn vm) none { sh with returnCount := sh.returnCount + 1 } [.countInactive vm]
  | countInactive {sh vm} :
      Step env sh (.countInactive vm) none { sh with activeCount := sh.activeCount - 1 } [.check vm]
  | returnClosed {sh vm} : sh.closed = true → Step env sh (.check vm) none sh []
  | returnOpen {sh vm} : sh.closed = false → Step env sh (.check vm) none sh [.reset vm]
  | noSnapshot {sh vm} : sh.snapshots vm = none → Step env sh (.reset vm) none sh [.offer vm]
  | reset {sh vm snap names entries g} : sh.snapshots vm = some snap → Ranges (env.snapshotKeys (sh.globals vm)) names →
      entries.Perm snap.entries → env.resetToBaseline names entries (sh.globals vm) = some g →
      Step env sh (.reset vm) none
        { sh with
          globals := Function.update sh.globals vm g
          snapshots := Function.update sh.snapshots vm none } [.offer vm]
  | resetFails {sh vm snap names entries} : sh.snapshots vm = some snap →
      Ranges (env.snapshotKeys (sh.globals vm)) names → entries.Perm snap.entries →
      env.resetToBaseline names entries (sh.globals vm) = none →
      Step env sh (.reset vm) none { sh with snapshots := Function.update sh.snapshots vm none } []
  | offer {sh vm} : Step env sh (.offer vm) none { sh with pool := sh.pool ++ [vm] } []
  -- `close`
  | close {sh} : Step env sh .close none { sh with closed := true } [.clear]
  | clear {sh} : Step env sh .clear none { sh with pool := [] } []

structure PoolState (N K L : Type) [LinearOrder N] where
  shared : Shared N K L
  threads : List Thread := []

/-- The runs whose steps `Fits` allows, with the executions in their order: an execution or a call of `close` begins, or
one takes a step. -/
inductive Run (env : Env N K L X R) (Fits : PoolState N K L → Thread → Option (Execution X R) → Prop) :
    PoolState N K L → List (Execution X R) → Prop
  | init : Run env Fits ⟨{ globals := fun _ => env.first }, []⟩ []
  | borrow {sh ts es} : Run env Fits ⟨sh, ts⟩ es → Run env Fits ⟨sh, .borrow :: ts⟩ es
  | close {sh ts es} : Run env Fits ⟨sh, ts⟩ es → Run env Fits ⟨sh, .close :: ts⟩ es
  | step {sh pre t post es ev sh' ts} : Run env Fits ⟨sh, pre ++ t :: post⟩ es → t.Step env sh ev sh' ts →
      Fits ⟨sh, pre ++ t :: post⟩ t ev → Run env Fits ⟨sh', pre ++ ts ++ post⟩ (es ++ ev.toList)

/-! ## What is promised -/

/-- The state that an execution has, from the step that takes or creates it to the step that gives it back. -/
def Thread.vm : Thread → Option Nat
  | load vm => some vm
  | snapshot vm => some vm
  | execute vm => some vm
  | countReturn vm => some vm
  | countInactive vm => some vm
  | check vm => some vm
  | reset vm => some vm
  | offer vm => some vm
  | _ => none

def Thread.closing : Thread → Bool
  | close => true
  | clear => true
  | _ => false

/-- What the constructor or `borrow` loaded. -/
def Env.loaded (env : Env N K L X R) (vm : Nat) : Option (Globals N K L) :=
  if vm = 0 then some env.first else env.load vm

structure Right (env : Env N K L X R) (s : PoolState N K L) (es : List (Execution X R)) : Prop where
  lent_once : (s.threads.filterMap Thread.vm).Nodup
  cleared : s.shared.closed = true → s.threads = [] → s.shared.pool = []
  counted : (∀ t ∈ s.threads, t.closing = true) →
    s.shared.activeCount = 0 ∧ s.shared.borrowCount = s.shared.returnCount
  /-- A script that keeps nothing runs on every state as on the state that was loaded. -/
  fresh : (∀ x g, (env.execute x g).2.kept = g.kept) →
    ∀ e ∈ es, ∃ g, env.loaded e.vm = some g ∧ e.result = (env.execute e.input g).1

def Decoded (env : Env N K L X R) (g : Globals N K L) : Prop :=
  ∀ name ∈ g.named.keys, env.valueOf (env.tojstring name) = name

/-- A state that reset makes what it was when it was loaded. -/
structure Restorable (env : Env N K L X R) (base g : Globals N K L) : Prop where
  kept : g.kept = base.kept
  rest : g.rest = base.rest
  decoded : Decoded env g
  present : env.newindex base.rest = none ∨ ∀ name ∈ base.named.keys, name ∈ g.named.keys

/-- `load` does not throw, and defines the names that the first one defined; the names of globals are well-formed. An
execution changes nothing but globals, and where `_G` has a `__newindex` removes none that it found. No state is put
into the queue after every call of `close` has cleared it. -/
def Fits (env : Env N K L X R) (s : PoolState N K L) (t : Thread) (ev : Option (Execution X R)) : Prop :=
  match t with
  | .load vm => ∃ g, env.load vm = some g ∧ g.named.keys = env.first.named.keys
  | .snapshot vm => Decoded env (s.shared.globals vm)
  | .execute vm => ∀ e ∈ ev, Restorable env (s.shared.globals vm) (env.execute e.input (s.shared.globals vm)).2
  | .offer _ => s.shared.closed = true → .clear ∈ s.threads
  | _ => True

/-! ## Resetting -/

theorem isnil_rawget {g : Globals N K L} {name : N} : (g.rawget name).isnil = false ↔ name ∈ g.named.keys := by
  rw [SortedMap.mem_keys, SortedMap.contains_iff, Globals.rawget]
  rcases h : g.named.find? name with _ | v
  · simp [LuaValue.isnil]
  · simp [g.not_nil name v h]

theorem find?_rawset {g : Globals N K L} {name : N} {v : LuaValue N} (hv : v.isnil = false) (x : N) :
    (g.rawset name v).named.find? x = if x = name then some v else g.named.find? x := by
  have hnamed : (g.rawset name v).named = g.named.insert name v := if_neg (Bool.eq_false_iff.mp hv)
  rw [hnamed, SortedMap.find?_insert]

theorem find?_rawset_nil {g : Globals N K L} {name : N} (x : N) :
    (g.rawset name .nil).named.find? x = if x = name then none else g.named.find? x :=
  SortedMap.find?_erase ..

theorem Decoded.valueOf {env : Env N K L X R} {g : Globals N K L} (h : Decoded env g) {name : String}
    (hname : name ∈ env.snapshotKeys g) :
    env.valueOf name ∈ g.named.keys ∧ env.tojstring (env.valueOf name) = name := by
  obtain ⟨k, hk, rfl⟩ := List.mem_map.mp hname
  rw [h k hk]
  exact ⟨hk, rfl⟩

/-- What a snapshot of a state remembers. -/
def Snapped (env : Env N K L X R) (base : Globals N K L) (names : List String)
    (snap : SortedMap String (LuaValue N)) : Prop :=
  ∀ name, snap.find? name = if name ∈ names then some (base.rawget (env.valueOf name)) else none

theorem snapshotBaselineValues_eq {env : Env N K L X R} {g : Globals N K L} {names : List String}
    (h : ∀ name ∈ names, env.valueOf name ∈ g.named.keys) :
    ∃ snap, env.snapshotBaselineValues names g = some (snap, g) ∧ Snapped env g names snap := by
  induction names with
  | nil => exact ⟨∅, rfl, fun name => by simp⟩
  | cons name names ih =>
    obtain ⟨snap, hsnap, hfind⟩ := ih fun name hname => h name (List.mem_cons_of_mem _ hname)
    have hget : env.get name g = some (g.rawget (env.valueOf name), g) := by
      rw [Env.get, isnil_rawget.mpr (h name List.mem_cons_self)]
      rfl
    refine ⟨snap.insert name (g.rawget (env.valueOf name)), ?_, fun x => ?_⟩
    · rw [Env.snapshotBaselineValues, hget]
      simp [hsnap]
    · rw [SortedMap.find?_insert, hfind]
      by_cases hx : x = name
      · simp [hx]
      · simp [hx]

theorem removeOthers_eq {env : Env N K L X R} {g : Globals N K L} {names : List String} (hdecoded : Decoded env g)
    (hnodup : names.Nodup) (h : ∀ name ∈ names, name ∈ env.snapshotKeys g) :
    ∃ g', env.removeOthers names g = some g' ∧ g'.kept = g.kept ∧ g'.rest = g.rest ∧
      ∀ k, g'.named.find? k =
        if env.tojstring k ∈ names ∧ env.tojstring k ∉ env.baselineKeys then none else g.named.find? k := by
  induction names generalizing g with
  | nil => exact ⟨g, rfl, rfl, rfl, fun k => by simp⟩
  | cons name names ih =>
    obtain ⟨hnot, hnodup⟩ := List.nodup_cons.mp hnodup
    rw [Env.removeOthers]
    split
    · next hbase =>
      obtain ⟨g', hg', hkept, hrest, hfind⟩ := ih hdecoded hnodup fun x hx => h x (List.mem_cons_of_mem _ hx)
      refine ⟨g', hg', hkept, hrest, fun k => ?_⟩
      rw [hfind]
      by_cases hk : env.tojstring k = name
      · simp [hk, hbase]
      · simp [hk]
    · next hbase =>
      obtain ⟨hmem, hname⟩ := hdecoded.valueOf (h name List.mem_cons_self)
      have hset : env.set name .nil g = some (g.rawset (env.valueOf name) .nil) := by
        rw [Env.set, isnil_rawget.mpr hmem]
        rfl
      have hkeys : ∀ k, k ∈ (g.rawset (env.valueOf name) .nil).named.keys ↔
          k ≠ env.valueOf name ∧ k ∈ g.named.keys := by
        intro k
        rw [SortedMap.mem_keys, SortedMap.contains_iff, SortedMap.mem_keys, SortedMap.contains_iff, find?_rawset_nil]
        by_cases hk : k = env.valueOf name <;> simp [hk]
      have hdecoded' : Decoded env (g.rawset (env.valueOf name) .nil) := fun k hk => hdecoded k ((hkeys k).mp hk).2
      have hothers : ∀ x ∈ names, x ∈ env.snapshotKeys (g.rawset (env.valueOf name) .nil) := by
        intro x hx
        obtain ⟨k, hk, rfl⟩ := List.mem_map.mp (h x (List.mem_cons_of_mem _ hx))
        refine List.mem_map_of_mem ((hkeys k).mpr ⟨?_, hk⟩)
        rintro rfl
        exact hnot (hname ▸ hx)
      obtain ⟨g', hg', hkept, hrest, hfind⟩ := ih hdecoded' hnodup hothers
      refine ⟨g', by rw [hset]; exact hg', hkept, hrest, fun k => ?_⟩
      rw [hfind, find?_rawset_nil]
      by_cases hk : env.tojstring k = name
      · -- a name that decodes alike is this one, or names no global
        have hgone : (if k = env.valueOf name then none else g.named.find? k) = none := by
          split
          · rfl
          · next hne =>
            rw [Option.eq_none_iff_forall_ne_some]
            intro v hv
            refine hne ?_
            rw [← hk, hdecoded k (SortedMap.mem_keys.mpr (SortedMap.contains_iff.mpr ⟨v, hv⟩))]
        rw [hgone]
        simp [hk, hbase]
      · have hne : k ≠ env.valueOf name := fun he => hk (he ▸ hname)
        simp [hk, hne]

theorem setGlobal_eq {env : Env N K L X R} {g : Globals N K L} {name : String} {v : LuaValue N} (hv : v.isnil = false)
    (h : env.newindex g.rest = none ∨ env.valueOf name ∈ g.named.keys) :
    ∃ g', env.setGlobal name v g = some g' ∧ g'.kept = g.kept ∧ g'.rest = g.rest ∧
      ∀ k, g'.named.find? k = if k = env.valueOf name then some v else g.named.find? k := by
  unfold Env.setGlobal
  split
  · refine ⟨_, rfl, rfl, rfl, fun k => ?_⟩
    rw [find?_rawset hv, find?_rawset_nil]
    by_cases hk : k = env.valueOf name <;> simp [hk]
  · refine ⟨g.rawset (env.valueOf name) _, ?_, rfl, rfl, find?_rawset hv⟩
    rw [Env.set]
    split
    · next hnil =>
      rcases h with h | h
      · rw [h]
      · rw [isnil_rawget.mpr h] at hnil
        cases hnil
    · rfl

theorem restore_eq {env : Env N K L X R} {g : Globals N K L} {entries : List (String × LuaValue N)}
    (hnodup : (entries.map fun e => env.valueOf e.1).Nodup) (hnil : ∀ e ∈ entries, e.2.isnil = false)
    (h : env.newindex g.rest = none ∨ ∀ e ∈ entries, env.valueOf e.1 ∈ g.named.keys) :
    ∃ g', env.restore entries g = some g' ∧ g'.kept = g.kept ∧ g'.rest = g.rest ∧
      (∀ e ∈ entries, g'.named.find? (env.valueOf e.1) = some e.2) ∧
      ∀ k, (∀ e ∈ entries, env.valueOf e.1 ≠ k) → g'.named.find? k = g.named.find? k := by
  induction entries generalizing g with
  | nil => exact ⟨g, rfl, rfl, rfl, fun e he => absurd he List.not_mem_nil, fun k _ => rfl⟩
  | cons e entries ih =>
    obtain ⟨hnot, hnodup⟩ := List.nodup_cons.mp hnodup
    obtain ⟨g₁, hg₁, hkept₁, hrest₁, hfind₁⟩ := setGlobal_eq (hnil e List.mem_cons_self)
      (h.imp_right fun h => h e List.mem_cons_self)
    have hpresent : env.newindex g₁.rest = none ∨ ∀ e ∈ entries, env.valueOf e.1 ∈ g₁.named.keys := by
      rw [hrest₁]
      refine h.imp_right fun h x hx => ?_
      have hx := h x (List.mem_cons_of_mem _ hx)
      rw [SortedMap.mem_keys, SortedMap.contains_iff] at hx ⊢
      obtain ⟨v, hv⟩ := hx
      rw [hfind₁]
      split
      · exact ⟨_, rfl⟩
      · exact ⟨v, hv⟩
    obtain ⟨g', hg', hkept, hrest, hin, hout⟩ := ih hnodup (fun x hx => hnil x (List.mem_cons_of_mem _ hx)) hpresent
    refine ⟨g', ?_, hkept.trans hkept₁, hrest.trans hrest₁, fun x hx => ?_, fun k hk => ?_⟩
    · rw [Env.restore, hg₁]
      exact hg'
    · rcases List.mem_cons.mp hx with rfl | hx
      · have hlast := hout (env.valueOf x.1) fun y hy he => hnot (List.mem_map.mpr ⟨y, hy, he⟩)
        rw [hlast, hfind₁, if_pos rfl]
      · exact hin x hx
    · rw [hout k fun x hx => hk x (List.mem_cons_of_mem _ hx), hfind₁,
        if_neg fun he => hk e List.mem_cons_self he.symm]

theorem Globals.ext {g g' : Globals N K L} (hnamed : ∀ k, g.named.find? k = g'.named.find? k)
    (hkept : g.kept = g'.kept) (hrest : g.rest = g'.rest) : g = g' := by
  obtain ⟨named, _, kept, rest⟩ := g
  obtain ⟨named', _, kept', rest'⟩ := g'
  obtain rfl : named = named' := SortedMap.ext_find? hnamed
  obtain rfl : kept = kept' := hkept
  obtain rfl : rest = rest' := hrest
  rfl

/-- Reset undoes what an execution made of the globals. -/
theorem resetToBaseline_eq {env : Env N K L X R} {base g : Globals N K L} {names kept : List String}
    {snap : SortedMap String (LuaValue N)} {entries : List (String × LuaValue N)} (hdecoded : Decoded env base)
    (hbase : ∀ name, name ∈ env.baselineKeys ↔ name ∈ env.snapshotKeys base) (h : Restorable env base g)
    (hkept : Ranges env.baselineKeys kept) (hsnap : Snapped env base kept snap)
    (hnames : Ranges (env.snapshotKeys g) names) (hentries : entries.Perm snap.entries) :
    env.resetToBaseline names entries g = some base := by
  obtain ⟨g₁, hg₁, hkept₁, hrest₁, hfind₁⟩ :=
    removeOthers_eq h.decoded hnames.nodup fun name hname => (hnames.mem_iff name).mp hname
  -- the entries are those of the globals that the state was loaded with
  have hentry : ∀ name v, (name, v) ∈ entries ↔ name ∈ env.baselineKeys ∧ v = base.rawget (env.valueOf name) := by
    intro name v
    rw [hentries.mem_iff, SortedMap.mem_entries, hsnap, ← hkept.mem_iff]
    by_cases hname : name ∈ kept
    · simp [hname, eq_comm]
    · simp [hname]
  have hvalueOf : ∀ e ∈ entries, env.valueOf e.1 ∈ base.named.keys ∧ env.tojstring (env.valueOf e.1) = e.1 :=
    fun e he => hdecoded.valueOf ((hbase _).mp ((hentry e.1 e.2).mp he).1)
  have hnodup : (entries.map fun e => env.valueOf e.1).Nodup := by
    have hfst : (entries.map Prod.fst).Nodup := (hentries.map Prod.fst).nodup_iff.mpr snap.keys_nodup
    have hmap : entries.map (env.tojstring ∘ fun e => env.valueOf e.1) = entries.map Prod.fst :=
      List.map_congr_left fun e he => (hvalueOf e he).2
    refine List.Nodup.of_map env.tojstring ?_
    rwa [List.map_map, hmap]
  have hnil : ∀ e ∈ entries, e.2.isnil = false := by
    intro e he
    rw [((hentry e.1 e.2).mp he).2]
    exact isnil_rawget.mpr (hvalueOf e he).1
  have hpresent : env.newindex g₁.rest = none ∨ ∀ e ∈ entries, env.valueOf e.1 ∈ g₁.named.keys := by
    rw [hrest₁, h.rest]
    refine h.present.imp_right fun hp e he => ?_
    have hin := hp _ (hvalueOf e he).1
    rw [SortedMap.mem_keys, SortedMap.contains_iff] at hin ⊢
    rwa [hfind₁, (hvalueOf e he).2, if_neg fun hb => hb.2 ((hentry e.1 e.2).mp he).1]
  obtain ⟨g', hg', hkept', hrest', hin, hout⟩ := restore_eq hnodup hnil hpresent
  have heq : g' = base := by
    refine Globals.ext (fun k => ?_) (hkept'.trans (hkept₁.trans h.kept)) (hrest'.trans (hrest₁.trans h.rest))
    by_cases hk : k ∈ base.named.keys
    · have hname : env.tojstring k ∈ env.baselineKeys := (hbase _).mpr (List.mem_map_of_mem hk)
      have hrestored := hin _ ((hentry (env.tojstring k) _).mpr ⟨hname, rfl⟩)
      dsimp only at hrestored
      rw [hdecoded k hk] at hrestored
      rw [SortedMap.mem_keys, SortedMap.contains_iff] at hk
      obtain ⟨v, hv⟩ := hk
      rw [hrestored, Globals.rawget, hv]
      rfl
    · have hnone : base.named.find? k = none := by
        rw [Option.eq_none_iff_forall_ne_some]
        exact fun v hv => hk (SortedMap.mem_keys.mpr (SortedMap.contains_iff.mpr ⟨v, hv⟩))
      rw [hnone, hout k fun e he heq => hk (heq ▸ (hvalueOf e he).1), hfind₁]
      split
      · rfl
      · next hstays =>
        rw [Option.eq_none_iff_forall_ne_some]
        intro v hv
        have hmem : k ∈ g.named.keys := SortedMap.mem_keys.mpr (SortedMap.contains_iff.mpr ⟨v, hv⟩)
        refine hstays ⟨(hnames.mem_iff _).mpr (List.mem_map_of_mem hmem), fun hb => hk ?_⟩
        have hvalue := (hdecoded.valueOf ((hbase _).mp hb)).1
        rwa [h.decoded k hmem] at hvalue
  rw [Env.resetToBaseline, hg₁, ← heq]
  exact hg'

/-! ## What stands in a state -/

/-- What the state is named for was loaded into it, and nothing else. -/
structure Fresh (env : Env N K L X R) (vm : Nat) (g : Globals N K L) : Prop where
  loaded : env.loaded vm = some g
  names : g.named.keys = env.first.named.keys

/-- The state of an execution that has a snapshot of it. -/
def Used (env : Env N K L X R) (sh : Shared N K L) (vm : Nat) : Prop :=
  ∃ base snap names, Fresh env vm base ∧ Decoded env base ∧ sh.snapshots vm = some snap ∧
    Ranges env.baselineKeys names ∧ Snapped env base names snap ∧ Restorable env base (sh.globals vm)

def Thread.Sound (env : Env N K L X R) (sh : Shared N K L) : Thread → Prop
  | snapshot vm => Fresh env vm (sh.globals vm)
  | execute vm => Fresh env vm (sh.globals vm) ∧ Used env sh vm
  | countReturn vm => Used env sh vm
  | countInactive vm => Used env sh vm
  | check vm => Used env sh vm
  | reset vm => Used env sh vm
  | offer vm => Fresh env vm (sh.globals vm)
  | _ => True

theorem Thread.Sound.congr {env : Env N K L X R} {sh sh' : Shared N K L} {t : Thread}
    (heq : ∀ vm, t.vm = some vm → sh'.globals vm = sh.globals vm ∧ sh'.snapshots vm = sh.snapshots vm)
    (h : t.Sound env sh) : t.Sound env sh' := by
  have hused : ∀ vm, t.vm = some vm → Used env sh vm → Used env sh' vm := by
    intro vm hvm hu
    obtain ⟨base, snap, names, hu⟩ := hu
    exact ⟨base, snap, names, by rwa [(heq vm hvm).1, (heq vm hvm).2]⟩
  rcases t with _ | _ | _ | _ | _ | vm | vm | vm | vm | vm | vm | vm | vm | _ | _
  case snapshot =>
    show Fresh env vm (sh'.globals vm)
    exact (heq vm rfl).1 ▸ h
  case execute => exact ⟨by rw [(heq vm rfl).1]; exact h.1, hused vm rfl h.2⟩
  case countReturn => exact hused vm rfl h
  case countInactive => exact hused vm rfl h
  case check => exact hused vm rfl h
  case reset => exact hused vm rfl h
  case offer =>
    show Fresh env vm (sh'.globals vm)
    exact (heq vm rfl).1 ▸ h
  all_goals trivial

/-- A step changes no state but its own. -/
theorem Thread.Step.frame {env : Env N K L X R} {sh sh' : Shared N K L} {t : Thread} {ev : Option (Execution X R)}
    {ts : List Thread} (h : t.Step env sh ev sh' ts) {vm : Nat} (hvm : t.vm ≠ some vm) :
    sh'.globals vm = sh.globals vm ∧ sh'.snapshots vm = sh.snapshots vm := by
  rcases h
  case load | snapshot | execute | reset | resetFails =>
    have hne : vm ≠ _ := fun he => hvm (congrArg some he.symm)
    simp [Function.update_of_ne hne]
  all_goals exact ⟨rfl, rfl⟩

theorem Used.reset {env : Env N K L X R} {sh : Shared N K L} {vm : Nat} (h : Used env sh vm)
    {snap : SortedMap String (LuaValue N)} {names : List String} {entries : List (String × LuaValue N)}
    (hsnap : sh.snapshots vm = some snap) (hnames : Ranges (env.snapshotKeys (sh.globals vm)) names)
    (hentries : entries.Perm snap.entries) :
    ∃ base, env.resetToBaseline names entries (sh.globals vm) = some base ∧ Fresh env vm base := by
  obtain ⟨base, snap', kept, hfresh, hdecoded, hsnap', hkept, hsnapped, hrestorable⟩ := h
  obtain rfl : snap = snap' := Option.some.inj (hsnap.symm.trans hsnap')
  have hbase : ∀ name, name ∈ env.baselineKeys ↔ name ∈ env.snapshotKeys base := fun name => by
    rw [Env.baselineKeys, Env.snapshotKeys, Env.snapshotKeys, hfresh.names]
  exact ⟨base, resetToBaseline_eq hdecoded hbase hrestorable hkept hsnapped hnames hentries, hfresh⟩

theorem Fresh.snapshot {env : Env N K L X R} {vm : Nat} {g : Globals N K L} (h : Fresh env vm g)
    (hdecoded : Decoded env g) {names : List String} (hnames : Ranges env.baselineKeys names) :
    ∃ snap, env.snapshotBaselineValues names g = some (snap, g) ∧ Snapped env g names snap := by
  refine snapshotBaselineValues_eq fun name hname => ?_
  have hkey : name ∈ env.snapshotKeys g := by
    rw [Env.snapshotKeys, h.names]
    exact (hnames.mem_iff name).mp hname
  exact (hdecoded.valueOf hkey).1

/-- What a step that fits makes of its own state. -/
theorem Thread.Step.sound {env : Env N K L X R} {s : PoolState N K L} {sh' : Shared N K L} {t : Thread}
    {ev : Option (Execution X R)} {ts : List Thread} (h : t.Step env s.shared ev sh' ts) (hsound : t.Sound env s.shared)
    (hfits : Fits env s t ev) (hcreated : ∀ vm, t = .load vm → vm ≠ 0)
    (hpool : ∀ vm ∈ s.shared.pool, Fresh env vm (s.shared.globals vm)) : ∀ t' ∈ ts, t'.Sound env sh' := by
  intro t' ht'
  rcases h
  case poll vm pool hfree =>
    obtain rfl := List.mem_singleton.mp ht'
    exact hpool vm (hfree ▸ List.mem_cons_self)
  case load vm g hload =>
    obtain rfl := List.mem_singleton.mp ht'
    obtain ⟨g', hload', hnames⟩ := hfits
    obtain rfl : g = g' := Option.some.inj (hload.symm.trans hload')
    show Fresh env vm (Function.update s.shared.globals vm g vm)
    rw [Function.update_self]
    exact ⟨by rw [Env.loaded, if_neg (hcreated vm rfl), hload], hnames⟩
  case snapshot vm names snap g hnames hsnap =>
    obtain rfl := List.mem_singleton.mp ht'
    obtain ⟨snap', hsnap', hsnapped⟩ := hsound.snapshot hfits hnames
    rw [hsnap'] at hsnap
    obtain ⟨rfl, rfl⟩ := Prod.mk.inj (Option.some.inj hsnap)
    refine ⟨?_, s.shared.globals vm, snap', names, hsound, hfits, Function.update_self .., hnames, hsnapped, ?_⟩
    · dsimp only
      rw [Function.update_self]
      exact hsound
    · dsimp only
      rw [Function.update_self]
      exact ⟨rfl, rfl, hfits, .inr fun _ h => h⟩
  case execute vm x =>
    obtain rfl := List.mem_singleton.mp ht'
    obtain ⟨hfresh, base, snap, names, hbase, hdecoded, hsnap, hnames, hsnapped, -⟩ := hsound
    obtain rfl : base = s.shared.globals vm := Option.some.inj (hbase.loaded.symm.trans hfresh.loaded)
    refine ⟨s.shared.globals vm, snap, names, hbase, hdecoded, hsnap, hnames, hsnapped, ?_⟩
    dsimp only
    rw [Function.update_self]
    exact hfits _ rfl
  case countReturn | countInactive | returnOpen =>
    obtain rfl := List.mem_singleton.mp ht'
    exact hsound
  case noSnapshot vm hnone =>
    obtain ⟨_, snap, _, _, _, hsnap, _⟩ := hsound
    rw [hnone] at hsnap
    cases hsnap
  case reset vm snap names entries g hsnap hnames hentries hreset =>
    obtain rfl := List.mem_singleton.mp ht'
    obtain ⟨base, hbase, hfresh⟩ := hsound.reset hsnap hnames hentries
    obtain rfl : g = base := Option.some.inj (hreset.symm.trans hbase)
    show Fresh env vm (Function.update s.shared.globals vm g vm)
    rw [Function.update_self]
    exact hfresh
  case opened | countBorrow | countActive | empty | create | close =>
    obtain rfl := List.mem_singleton.mp ht'
    trivial
  all_goals exact absurd ht' List.not_mem_nil

theorem Thread.Step.result {env : Env N K L X R} {sh sh' : Shared N K L} {t : Thread} {ev : Option (Execution X R)}
    {ts : List Thread} (h : t.Step env sh ev sh' ts) (hsound : t.Sound env sh) :
    ∀ e ∈ ev, ∃ g, env.loaded e.vm = some g ∧ e.result = (env.execute e.input g).1 := by
  intro e he
  rcases h
  case execute vm x =>
    cases he
    exact ⟨sh.globals vm, hsound.1.loaded, rfl⟩
  all_goals cases he

/-- Where the states of the queue come from. -/
theorem Thread.Step.pool {env : Env N K L X R} {sh sh' : Shared N K L} {t : Thread} {ev : Option (Execution X R)}
    {ts : List Thread} (h : t.Step env sh ev sh' ts) {vm : Nat} (hvm : vm ∈ sh'.pool) :
    vm ∈ sh.pool ∨ t = .offer vm := by
  rcases h
  case poll vm' pool hfree => exact .inl (hfree ▸ List.mem_cons_of_mem _ hvm)
  case offer vm' =>
    rcases List.mem_append.mp hvm with hvm | hvm
    · exact .inl hvm
    · exact .inr (congrArg Thread.offer (List.mem_singleton.mp hvm).symm)
  case clear => cases hvm
  all_goals exact .inl hvm

/-! ## Who has a state, and what is counted -/

def Thread.holds (vm : Nat) (t : Thread) : Nat := t.vm.toList.count vm

/-- How often a state is in the queue or with an execution. -/
def PoolState.owners (s : PoolState N K L) (vm : Nat) : Nat :=
  s.shared.pool.count vm + (s.threads.map (Thread.holds vm)).sum

/-- An execution that `borrowCount` counts and `returnCount` does not. -/
def Thread.borrowed : Thread → Int
  | countActive => 1
  | poll => 1
  | create => 1
  | load _ => 1
  | snapshot _ => 1
  | execute _ => 1
  | countReturn _ => 1
  | _ => 0

/-- An execution that `activeCount` counts. -/
def Thread.active : Thread → Int
  | poll => 1
  | create => 1
  | load _ => 1
  | snapshot _ => 1
  | execute _ => 1
  | countReturn _ => 1
  | countInactive _ => 1
  | _ => 0

theorem Thread.closing_counts {t : Thread} (h : t.closing = true) : t.borrowed = 0 ∧ t.active = 0 := by
  rcases t <;> simp_all [Thread.closing, Thread.borrowed, Thread.active]

theorem Thread.Step.owners {env : Env N K L X R} {sh sh' : Shared N K L} {t : Thread} {ev : Option (Execution X R)}
    {ts : List Thread} (h : t.Step env sh ev sh' ts) (vm : Nat) :
    sh'.pool.count vm + (ts.map (Thread.holds vm)).sum ≤ sh.pool.count vm + t.holds vm ∨
      vm = sh.createCount ∧ sh'.createCount = sh.createCount + 1 ∧ sh'.pool = sh.pool ∧ t.holds vm = 0 ∧
        (ts.map (Thread.holds vm)).sum = 1 := by
  rcases h
  case create =>
    by_cases h : vm = sh.createCount
    · right
      simp [Thread.holds, Thread.vm, h]
    · left
      simp [Thread.holds, Thread.vm, Ne.symm h]
  case poll vm' pool hfree =>
    left
    simp [Thread.holds, Thread.vm, hfree, List.count_cons]
  case offer vm' =>
    left
    simp [Thread.holds, Thread.vm]
  all_goals
    left
    simp [Thread.holds, Thread.vm]

theorem Thread.Step.createCount_le {env : Env N K L X R} {sh sh' : Shared N K L} {t : Thread}
    {ev : Option (Execution X R)} {ts : List Thread} (h : t.Step env sh ev sh' ts) :
    sh.createCount ≤ sh'.createCount := by
  rcases h <;> simp

/-- A step that fits throws nowhere, so what it counts it counts in pairs. -/
theorem Thread.Step.counts {env : Env N K L X R} {s : PoolState N K L} {sh' : Shared N K L} {t : Thread}
    {ev : Option (Execution X R)} {ts : List Thread} (h : t.Step env s.shared ev sh' ts) (hsound : t.Sound env s.shared)
    (hfits : Fits env s t ev) :
    sh'.borrowCount - sh'.returnCount - (ts.map Thread.borrowed).sum =
        s.shared.borrowCount - s.shared.returnCount - t.borrowed ∧
      sh'.activeCount - (ts.map Thread.active).sum = s.shared.activeCount - t.active := by
  rcases h
  case loadFails vm hnone =>
    obtain ⟨g, hload, -⟩ := hfits
    rw [hnone] at hload
    cases hload
  case snapshotFails vm names hnames hnone =>
    obtain ⟨snap, hsnap, -⟩ := hsound.snapshot hfits hnames
    rw [hnone] at hsnap
    cases hsnap
  all_goals
    simp [Thread.borrowed, Thread.active]
    try omega

/-- Once `close` is called the queue is empty, or is yet to be cleared. -/
theorem Thread.Step.cleared {env : Env N K L X R} {s : PoolState N K L} {sh' : Shared N K L} {t : Thread}
    {ev : Option (Execution X R)} {ts : List Thread} (h : t.Step env s.shared ev sh' ts) (hfits : Fits env s t ev)
    (hcleared : s.shared.closed = true → s.shared.pool = [] ∨ .clear ∈ s.threads) (hclosed : sh'.closed = true) :
    sh'.pool = [] ∨ .clear ∈ ts ∨ t ≠ .clear ∧ .clear ∈ s.threads := by
  rcases h
  case clear => exact .inl rfl
  case close => exact .inr (.inl List.mem_cons_self)
  case offer => exact .inr (.inr ⟨by simp, hfits hclosed⟩)
  case poll vm pool hfree =>
    rcases hcleared hclosed with hempty | hmem
    · rw [hfree] at hempty
      cases hempty
    · exact .inr (.inr ⟨by simp, hmem⟩)
  all_goals
    rcases hcleared hclosed with hempty | hmem
    · exact .inl hempty
    · exact .inr (.inr ⟨by simp, hmem⟩)

structure PoolState.Inv (env : Env N K L X R) (s : PoolState N K L) : Prop where
  once : ∀ vm, s.owners vm ≤ 1
  made : ∀ vm, s.shared.createCount ≤ vm → s.owners vm = 0
  positive : 0 < s.shared.createCount
  created : ∀ vm, .load vm ∈ s.threads → vm ≠ 0
  sound : ∀ t ∈ s.threads, t.Sound env s.shared
  pool : ∀ vm ∈ s.shared.pool, Fresh env vm (s.shared.globals vm)
  borrowed : s.shared.borrowCount - s.shared.returnCount = (s.threads.map Thread.borrowed).sum
  active : s.shared.activeCount = (s.threads.map Thread.active).sum
  cleared : s.shared.closed = true → s.shared.pool = [] ∨ .clear ∈ s.threads

theorem inv_init (env : Env N K L X R) : PoolState.Inv env ⟨{ globals := fun _ => env.first }, []⟩ where
  once vm := by
    simp only [PoolState.owners, List.map_nil, List.sum_nil, Nat.add_zero]
    exact List.nodup_iff_count_le_one.mp (List.nodup_singleton 0) vm
  made vm hvm := by
    have hne : 0 ≠ vm := by
      rintro rfl
      cases hvm
    simp [PoolState.owners, hne]
  positive := Nat.one_pos
  created vm h := absurd h List.not_mem_nil
  sound t h := absurd h List.not_mem_nil
  pool vm h := by
    obtain rfl := List.mem_singleton.mp h
    exact ⟨rfl, rfl⟩
  borrowed := rfl
  active := rfl
  cleared h := by cases h

theorem holds_of_vm {t : Thread} {vm : Nat} (h : t.vm = some vm) : t.holds vm = 1 := by
  simp [Thread.holds, h]

theorem le_sum_holds {ts : List Thread} {t : Thread} {vm : Nat} (ht : t ∈ ts) (h : t.vm = some vm) :
    1 ≤ (ts.map (Thread.holds vm)).sum := by
  obtain ⟨pre, post, rfl⟩ := List.append_of_mem ht
  simp [holds_of_vm h]
  omega

theorem PoolState.Inv.run {env : Env N K L X R} {pre post ts : List Thread} {t : Thread} {sh sh' : Shared N K L}
    {ev : Option (Execution X R)} (h : PoolState.Inv env ⟨sh, pre ++ t :: post⟩) (hstep : t.Step env sh ev sh' ts)
    (hfits : Fits env ⟨sh, pre ++ t :: post⟩ t ev) : PoolState.Inv env ⟨sh', pre ++ ts ++ post⟩ := by
  have hold : ∀ vm, PoolState.owners ⟨sh, pre ++ t :: post⟩ vm =
      sh.pool.count vm + t.holds vm + ((pre.map (Thread.holds vm)).sum + (post.map (Thread.holds vm)).sum) :=
    fun vm => by simp [owners]; omega
  have hnew : ∀ vm, PoolState.owners ⟨sh', pre ++ ts ++ post⟩ vm = sh'.pool.count vm +
      (ts.map (Thread.holds vm)).sum + ((pre.map (Thread.holds vm)).sum + (post.map (Thread.holds vm)).sum) :=
    fun vm => by simp [owners]; omega
  have ht : t ∈ pre ++ t :: post := by simp
  have hsound : t.Sound env sh := h.sound t ht
  have hpositive := h.positive
  have hcreated := hstep.createCount_le
  have hothers : ∀ t' ∈ pre ++ post, ∀ vm, t'.vm = some vm → t.vm ≠ some vm := by
    intro t' ht' vm hvm' hvm
    have honce := h.once vm
    have hle := le_sum_holds ht' hvm'
    rw [hold, holds_of_vm hvm] at honce
    rw [List.map_append, List.sum_append] at hle
    omega
  have hqueue : ∀ vm ∈ sh.pool, t.vm ≠ some vm := by
    intro vm hmem hvm
    have honce := h.once vm
    rw [hold, holds_of_vm hvm] at honce
    have := List.count_pos_iff.mpr hmem
    omega
  refine ⟨fun vm => ?_, fun vm hvm => ?_, ?_, fun vm hvm => ?_, fun t' ht' => ?_, fun vm hvm => ?_, ?_, ?_, ?_⟩
  · have honce := h.once vm
    rw [hold] at honce
    rw [hnew]
    rcases hstep.owners vm with hle | ⟨rfl, _, hpool, hholds, hts⟩
    · omega
    · have hmade := h.made sh.createCount (Nat.le_refl _)
      rw [hold] at hmade
      rw [hpool, hts]
      omega
  · have hmade := h.made vm (Nat.le_trans hcreated hvm)
    rw [hold] at hmade
    rw [hnew]
    rcases hstep.owners vm with hle | ⟨rfl, hnext, _⟩
    · omega
    · simp only at hvm
      omega
  · exact Nat.lt_of_lt_of_le hpositive hcreated
  · simp only [List.append_assoc, List.mem_append] at hvm
    rcases hvm with hvm | hvm | hvm
    · exact h.created vm (List.mem_append_left _ hvm)
    · rcases hstep <;> simp_all
      omega
    · exact h.created vm (List.mem_append_right _ (List.mem_cons_of_mem _ hvm))
  · have hother : t' ∈ pre ++ post → t'.Sound env sh' := fun hmem => by
      have hkeeps : t'.Sound env sh := h.sound t' (by
        rcases List.mem_append.mp hmem with hm | hm
        · exact List.mem_append_left _ hm
        · exact List.mem_append_right _ (List.mem_cons_of_mem _ hm))
      exact hkeeps.congr fun vm hvm => hstep.frame (hothers t' hmem vm hvm)
    simp only [List.append_assoc, List.mem_append] at ht'
    rcases ht' with ht' | ht' | ht'
    · exact hother (List.mem_append_left _ ht')
    · have hloads : ∀ vm, t = .load vm → vm ≠ 0 := fun vm hload => h.created vm (hload ▸ ht)
      exact hstep.sound (s := ⟨sh, pre ++ t :: post⟩) hsound hfits hloads h.pool t' ht'
    · exact hother (List.mem_append_right _ ht')
  · rcases hstep.pool hvm with hvm | rfl
    · rw [(hstep.frame (hqueue vm hvm)).1]
      exact h.pool vm hvm
    · rcases hstep
      exact hsound
  · have hb := h.borrowed
    have hc := (hstep.counts (s := ⟨sh, pre ++ t :: post⟩) hsound hfits).1
    simp only [List.map_append, List.map_cons, List.sum_append, List.sum_cons] at hb hc ⊢
    omega
  · have ha := h.active
    have hc := (hstep.counts (s := ⟨sh, pre ++ t :: post⟩) hsound hfits).2
    simp only [List.map_append, List.map_cons, List.sum_append, List.sum_cons] at ha hc ⊢
    omega
  · intro hclosed
    rcases hstep.cleared (s := ⟨sh, pre ++ t :: post⟩) hfits h.cleared hclosed with hempty | hmem | ⟨hne, hmem⟩
    · exact .inl hempty
    · exact .inr (by simp [hmem])
    · right
      simp only [List.mem_append, List.mem_cons] at hmem ⊢
      rcases hmem with hmem | rfl | hmem
      · exact .inl (.inl hmem)
      · exact absurd rfl hne
      · exact .inr hmem

theorem PoolState.Inv.start {env : Env N K L X R} {sh : Shared N K L} {ts : List Thread} {t : Thread}
    (h : PoolState.Inv env ⟨sh, ts⟩) (hvm : t.vm = none) (hsound : t.Sound env sh) (hborrowed : t.borrowed = 0)
    (hactive : t.active = 0) : PoolState.Inv env ⟨sh, t :: ts⟩ where
  once vm := by simpa [PoolState.owners, Thread.holds, hvm] using h.once vm
  made vm hle := by simpa [PoolState.owners, Thread.holds, hvm] using h.made vm hle
  positive := h.positive
  created vm hmem := by
    rcases List.mem_cons.mp hmem with rfl | hmem
    · cases hvm
    · exact h.created vm hmem
  sound t' ht' := by
    rcases List.mem_cons.mp ht' with rfl | ht'
    · exact hsound
    · exact h.sound t' ht'
  pool := h.pool
  borrowed := by simpa [hborrowed] using h.borrowed
  active := by simpa [hactive] using h.active
  cleared hclosed := (h.cleared hclosed).imp_right (List.mem_cons_of_mem _)

theorem Run.inv {env : Env N K L X R} {s : PoolState N K L} {es : List (Execution X R)} (h : Run env (Fits env) s es) :
    s.Inv env ∧ ∀ e ∈ es, ∃ g, env.loaded e.vm = some g ∧ e.result = (env.execute e.input g).1 := by
  induction h with
  | init => exact ⟨inv_init env, fun e he => absurd he List.not_mem_nil⟩
  | borrow _ ih => exact ⟨ih.1.start rfl trivial rfl rfl, ih.2⟩
  | close _ ih => exact ⟨ih.1.start rfl trivial rfl rfl, ih.2⟩
  | step _ hstep hfits ih =>
    refine ⟨ih.1.run hstep hfits, fun e he => ?_⟩
    rcases List.mem_append.mp he with he | he
    · exact ih.2 e he
    · exact hstep.result (ih.1.sound _ (by simp)) e (Option.mem_toList.mp he)

theorem count_lent (ts : List Thread) (vm : Nat) :
    (ts.filterMap Thread.vm).count vm = (ts.map (Thread.holds vm)).sum := by
  induction ts with
  | nil => rfl
  | cons t ts ih =>
    rw [List.map_cons, List.sum_cons, ← ih, List.filterMap_cons]
    split
    · next h => simp [Thread.holds, h]
    · next h => simp [Thread.holds, h, List.count_cons]; omega

theorem closing_counts {ts : List Thread} (h : ∀ t ∈ ts, t.closing = true) :
    (ts.map Thread.borrowed).sum = 0 ∧ (ts.map Thread.active).sum = 0 := by
  induction ts with
  | nil => exact ⟨rfl, rfl⟩
  | cons t ts ih =>
    obtain ⟨hb, ha⟩ := ih fun t' ht' => h t' (List.mem_cons_of_mem _ ht')
    obtain ⟨htb, hta⟩ := Thread.closing_counts (h t List.mem_cons_self)
    simp [hb, ha, htb, hta]

/-- A run that fits is right in every state. -/
theorem pool_right {env : Env N K L X R} {s : PoolState N K L} {es : List (Execution X R)}
    (h : Run env (Fits env) s es) : Right env s es where
  lent_once := by
    refine List.nodup_iff_count_le_one.mpr fun vm => ?_
    have honce := h.inv.1.once vm
    rw [PoolState.owners] at honce
    rw [count_lent]
    omega
  cleared hclosed hthreads := by
    rcases h.inv.1.cleared hclosed with hempty | hmem
    · exact hempty
    · rw [hthreads] at hmem
      cases hmem
  counted hclosing := by
    have hborrowed := h.inv.1.borrowed
    have hactive := h.inv.1.active
    obtain ⟨hb, ha⟩ := closing_counts hclosing
    rw [hb] at hborrowed
    exact ⟨hactive.trans ha, by omega⟩
  fresh _ := h.inv.2

/-! ## Runs that are not right -/

theorem Run.head {env : Env N K L X R} {P : PoolState N K L → Thread → Option (Execution X R) → Prop}
    {sh sh' : Shared N K L} {t : Thread} {post ts : List Thread} {es : List (Execution X R)}
    {ev : Option (Execution X R)} (h : Run env P ⟨sh, t :: post⟩ es) (hstep : t.Step env sh ev sh' ts)
    (hfits : P ⟨sh, t :: post⟩ t ev) : Run env P ⟨sh', ts ++ post⟩ (es ++ ev.toList) :=
  @Run.step _ _ _ _ _ _ env P sh [] t post es ev sh' ts h hstep hfits

/-- Every step is allowed. -/
def Any (_ : PoolState N K L) (_ : Thread) (_ : Option (Execution X R)) : Prop := True

theorem Run.next {env : Env N K L X R} {sh sh' : Shared N K L} {t : Thread} {post ts : List Thread}
    {es : List (Execution X R)} {ev : Option (Execution X R)} (h : Run env Any ⟨sh, t :: post⟩ es)
    (hstep : t.Step env sh ev sh' ts) : Run env Any ⟨sh', ts ++ post⟩ (es ++ ev.toList) :=
  h.head hstep trivial

/-- An execution on the only state of the queue, up to the step that gives it back. -/
theorem Run.executes {env : Env N K L X R} {sh : Shared N K L} {es : List (Execution X R)}
    (h : Run env Any ⟨sh, []⟩ es) {vm : Nat} (hpool : sh.pool = [vm]) (hopen : sh.closed = false) {names : List String}
    (hnames : Ranges env.baselineKeys names) {snap : SortedMap String (LuaValue N)} {g : Globals N K L}
    (hsnap : env.snapshotBaselineValues names (sh.globals vm) = some (snap, g)) (x : X) :
    ∃ sh', Run env Any ⟨sh', [.reset vm]⟩ (es ++ [⟨vm, x, (env.execute x g).1⟩]) ∧ sh'.pool = [] ∧
      sh'.closed = false ∧ sh'.snapshots vm = some snap ∧ sh'.globals vm = (env.execute x g).2 := by
  have hlent := ((((h.borrow.next (.opened hopen)).next .countBorrow).next .countActive).next
    (.poll hpool)).next (.snapshot hnames hsnap)
  have hdone := (((hlent.next (.execute (x := x))).next .countReturn).next .countInactive).next (.returnOpen hopen)
  simp only [Option.toList, List.append_nil, Function.update_self] at hdone
  exact ⟨_, hdone, rfl, hopen, Function.update_self .., Function.update_self ..⟩

theorem Run.resets {env : Env N K L X R} {sh : Shared N K L} {es : List (Execution X R)} {vm : Nat}
    (h : Run env Any ⟨sh, [.reset vm]⟩ es) (hpool : sh.pool = []) {snap : SortedMap String (LuaValue N)}
    (hsnap : sh.snapshots vm = some snap) {names : List String}
    (hnames : Ranges (env.snapshotKeys (sh.globals vm)) names)
    {g : Globals N K L} (hreset : env.resetToBaseline names snap.entries (sh.globals vm) = some g) :
    ∃ sh', Run env Any ⟨sh', [.offer vm]⟩ es ∧ sh'.pool = [] ∧ sh'.closed = sh.closed ∧ sh'.globals vm = g := by
  have hdone := h.next (.reset hsnap hnames (List.Perm.refl _) hreset)
  simp only [Option.toList, List.append_nil] at hdone
  exact ⟨_, hdone, hpool, rfl, Function.update_self ..⟩

def bare (n : Nat) : Globals String Unit Nat where
  named := ∅
  not_nil name v h := by cases h
  kept := ()
  rest := n

/-- A script whose function counts its calls in a field of the `string` table. -/
def countingEnv : Env String Unit Nat Unit Nat where
  tojstring := id
  valueOf := id
  index _ := none
  newindex _ := none
  first := bare 0
  load _ := some (bare 0)
  execute _ g := (g.rest, { g with rest := g.rest + 1 })

/-- A script that throws when it is loaded again. -/
def throwingEnv : Env String Unit Nat Unit Nat := { countingEnv with load := fun _ => none }

theorem ranges_bare (n : Nat) : Ranges (countingEnv.snapshotKeys (bare n)) [] := ⟨List.nodup_nil, fun _ => Iff.rfl⟩

/-- The second execution finds what the first one counted; `close` clears the queue before a state is put into it;
and a throwing `load` leaves a borrow that no return follows. -/
theorem not_pool_right :
    ((∀ x g, (countingEnv.execute x g).2.kept = g.kept) ∧ ¬ ∀ s es, Run countingEnv Any s es →
      ∀ e ∈ es, ∃ g, countingEnv.loaded e.vm = some g ∧ e.result = (countingEnv.execute e.input g).1) ∧
    (¬ ∀ s es, Run countingEnv Any s es → s.shared.closed = true → s.threads = [] → s.shared.pool = []) ∧
    ¬ ∀ s es, Run throwingEnv Any s es → s.threads = [] → s.shared.activeCount = 0 := by
  obtain ⟨sh, hrun, hpool, hopen, hsnap, hglobals⟩ := Run.init.executes rfl rfl (ranges_bare 0) rfl ()
  have hused : sh.globals 0 = bare 1 := hglobals
  obtain ⟨sh₁, hreset, hpool₁, hopen₁, hglobals₁⟩ :=
    hrun.resets hpool hsnap (hused ▸ ranges_bare 1) (g := bare 1) (by rw [hused]; rfl)
  refine ⟨⟨fun _ _ => rfl, fun h => ?_⟩, fun h => ?_, fun h => ?_⟩
  · have hoffered := hreset.next .offer
    rw [hpool₁] at hoffered
    have hsnap₁ : countingEnv.snapshotBaselineValues [] (sh₁.globals 0) = some (∅, bare 1) := by
      rw [hglobals₁]
      rfl
    obtain ⟨sh₂, hagain, -⟩ := hoffered.executes rfl (hopen₁.trans hopen) (ranges_bare 0) hsnap₁ ()
    obtain ⟨g, hloaded, hresult⟩ := h _ _ hagain ⟨0, (), 1⟩ (by simp [countingEnv, bare])
    obtain rfl : bare 0 = g := Option.some.inj hloaded
    cases hresult
  · have hcleared := ((hreset.close.next .close).next .clear).next .offer
    cases h _ _ hcleared rfl rfl
  · have hinit : Run throwingEnv Any ⟨{ globals := fun _ => bare 0 }, []⟩ [] := .init
    have hclosed := ((hinit.borrow.next (.opened rfl)).close.next .close).next .clear
    have hcreates := (((hclosed.next .countBorrow).next .countActive).next (.empty rfl)).next .create
    have hthrows := hcreates.next (.loadFails rfl)
    cases h _ _ hthrows rfl

/-- A script that defines a global when it is called. -/
def definingEnv : Env String Unit Nat Unit Nat :=
  { countingEnv with execute := fun _ g => (g.rest, g.rawset "seen" (.boolean true)) }

theorem pool_right_defining : ∃ s, s.threads = [.countReturn 0] ∧ Right definingEnv s [⟨0, (), 0⟩] := by
  have hinit : Run definingEnv (Fits definingEnv) ⟨{ globals := fun _ => bare 0 }, []⟩ [] := .init
  have hpolls := ((hinit.borrow.head (.opened rfl) trivial).head .countBorrow trivial).head .countActive trivial
  have hsnapshot := (hpolls.head (.poll rfl) trivial).head
    (.snapshot (ranges_bare 0) rfl) fun _ _ => rfl
  have hexecutes := hsnapshot.head (.execute (x := ())) (by
    intro e he
    cases he
    exact ⟨rfl, rfl, fun _ _ => rfl, .inl rfl⟩)
  exact ⟨_, rfl, pool_right hexecutes⟩

end Pineapple.JavaLuaPool
