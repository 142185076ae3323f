import Mathlib.Algebra.BigOperators.Group.List.Basic
import Mathlib.Algebra.Ring.Int.Defs
import Mathlib.Algebra.Ring.Nat
import Mathlib.Logic.Relation
import Mathlib.Data.List.Count
import Mathlib.Data.List.Nodup

/-! # The pool of Lua states (`lua_pool.cpp`)

What the mutex protects is one step, and every other step of a borrower stands alone; the borrowers take their steps in
any order. A state is named by its place in `all_vms_`. -/

namespace Pineapple.LuaPool

structure Shared where
  free : List Nat := [0]
  all : Nat := 1
  closed : Bool := false
  borrowCount : Int := 0
  returnCount : Int := 0
  createCount : Int := 1
  reuseCount : Int := 0
  activeCount : Int := 0
  /-- the states whose reset threw -/
  failed : List Nat := []

/-- Where a borrower stands. -/
inductive Thread
  | acquire
  | capture (vm : Nat)
  | giveBack (vm : Nat)
  | countBorrow (vm : Nat)
  | countActive (vm : Nat)
  | handle (vm : Nat)
  | release (vm : Nat)
  | reset (vm : Nat)
  | putBack (vm : Nat)
  | countReturn
  | countInactive

/-- What a step of a borrower shows: the pool lends it a state, or it gets an exception. -/
inductive Event
  | lends (vm : Nat)
  | throws

inductive Thread.Step : Shared → Thread → Option Event → Shared → List Thread → Prop
  -- `acquire_vm`
  | closed {sh} : sh.closed = true → Step sh .acquire (some .throws) sh []
  | reuse {sh free vm} : sh.closed = false → sh.free = free ++ [vm] →
      Step sh .acquire (some (.lends vm)) { sh with free := free, reuseCount := sh.reuseCount + 1 } [.capture vm]
  /-- `load_script` throws -/
  | loadFails {sh} : sh.closed = false → sh.free = [] → Step sh .acquire (some .throws) sh []
  | create {sh} : sh.closed = false → sh.free = [] →
      Step sh .acquire (some (.lends sh.all)) { sh with all := sh.all + 1, createCount := sh.createCount + 1 }
        [.capture sh.all]
  | captureFails {sh vm} : Step sh (.capture vm) none sh [.giveBack vm]
  | capture {sh vm} : Step sh (.capture vm) none sh [.countBorrow vm]
  | giveBack {sh vm} : Step sh (.giveBack vm) (some .throws)
      { sh with free := if sh.closed then sh.free else sh.free ++ [vm] } []
  | countBorrow {sh vm} : Step sh (.countBorrow vm) none { sh with borrowCount := sh.borrowCount + 1 } [.countActive vm]
  | countActive {sh vm} : Step sh (.countActive vm) none { sh with activeCount := sh.activeCount + 1 } [.handle vm]
  -- `release_vm`
  | drop {sh vm} : Step sh (.handle vm) none sh [.release vm]
  | releaseClosed {sh vm} : sh.closed = true → Step sh (.release vm) none sh [.countReturn]
  | release {sh vm} : sh.closed = false → Step sh (.release vm) none sh [.reset vm]
  | resetFails {sh vm} : Step sh (.reset vm) none { sh with failed := vm :: sh.failed } [.countReturn]
  | reset {sh vm} : Step sh (.reset vm) none sh [.putBack vm]
  | putBack {sh vm} : Step sh (.putBack vm) none
      { sh with free := if sh.closed then sh.free else sh.free ++ [vm] } [.countReturn]
  | countReturn {sh} : Step sh .countReturn none { sh with returnCount := sh.returnCount + 1 } [.countInactive]
  | countInactive {sh} : Step sh .countInactive none { sh with activeCount := sh.activeCount - 1 } []

structure PoolState where
  shared : Shared := {}
  threads : List Thread := []

/-- A borrower takes a step, a new one calls `borrow`, or `close` is called. -/
inductive PoolStep : PoolState → Option Event → PoolState → Prop
  | run {pre t post sh ev sh' ts} : t.Step sh ev sh' ts → PoolStep ⟨sh, pre ++ t :: post⟩ ev ⟨sh', pre ++ ts ++ post⟩
  | borrow {sh ts} : PoolStep ⟨sh, ts⟩ none ⟨sh, .acquire :: ts⟩
  | close {sh ts} : PoolStep ⟨sh, ts⟩ none ⟨{ sh with closed := true }, ts⟩

def Reachable : PoolState → Prop := Relation.ReflTransGen (fun s s' => ∃ ev, PoolStep s ev s') {}

/-! ## Who has a state -/

/-- The state that a borrower has been lent and the pool has not got back. -/
def Thread.vm : Thread → Option Nat
  | acquire => none
  | capture vm => some vm
  | giveBack vm => some vm
  | countBorrow vm => some vm
  | countActive vm => some vm
  | handle vm => some vm
  | release vm => some vm
  | reset vm => some vm
  | putBack vm => some vm
  | countReturn => none
  | countInactive => none

def Thread.holds (vm : Nat) (t : Thread) : Nat := t.vm.toList.count vm

/-- How often a state is in the free list or with a borrower. -/
def PoolState.owners (s : PoolState) (vm : Nat) : Nat := s.shared.free.count vm + (s.threads.map (Thread.holds vm)).sum

/-- A borrower that `borrow_count` counts and `return_count` does not. -/
def Thread.borrowed : Thread → Int
  | countActive _ => 1
  | handle _ => 1
  | release _ => 1
  | reset _ => 1
  | putBack _ => 1
  | countReturn => 1
  | _ => 0

/-- A borrower that `active_count` counts. -/
def Thread.active : Thread → Int
  | handle _ => 1
  | release _ => 1
  | reset _ => 1
  | putBack _ => 1
  | countReturn => 1
  | countInactive => 1
  | _ => 0

structure PoolState.Inv (s : PoolState) : Prop where
  once : ∀ vm, s.owners vm ≤ 1
  made : ∀ vm, s.shared.all ≤ vm → s.owners vm = 0
  failed : ∀ vm ∈ s.shared.failed, vm < s.shared.all ∧ s.owners vm = 0
  borrowed : s.shared.borrowCount - s.shared.returnCount = (s.threads.map Thread.borrowed).sum
  active : s.shared.activeCount = (s.threads.map Thread.active).sum

/-- What a step of a borrower makes of the places of a state. -/
theorem Thread.Step.owners {sh sh' : Shared} {t : Thread} {ev : Option Event} {ts : List Thread}
    (h : t.Step sh ev sh' ts) (vm : Nat) :
    sh'.free.count vm + (ts.map (Thread.holds vm)).sum ≤ sh.free.count vm + t.holds vm ∨
      vm = sh.all ∧ sh'.all = sh.all + 1 ∧ sh'.free = sh.free ∧ t.holds vm = 0 ∧ (ts.map (Thread.holds vm)).sum = 1 := by
  cases h with
  | create =>
    by_cases h : vm = sh.all
    · exact .inr ⟨h, rfl, rfl, rfl, by simp [holds, Thread.vm, h]⟩
    · exact .inl (by simp [holds, Thread.vm, Ne.symm h])
  | reuse _ hfree => left; simp [holds, Thread.vm, hfree, List.count_append]
  | giveBack | putBack =>
    left
    split <;> simp [holds, Thread.vm, List.count_append]
  | _ => left; simp [holds, Thread.vm]

theorem Thread.Step.all_le {sh sh' : Shared} {t : Thread} {ev : Option Event} {ts : List Thread}
    (h : t.Step sh ev sh' ts) : sh.all ≤ sh'.all := by
  cases h <;> simp

/-- A state whose reset throws leaves the borrower and does not come to the pool. -/
theorem Thread.Step.failed {sh sh' : Shared} {t : Thread} {ev : Option Event} {ts : List Thread}
    (h : t.Step sh ev sh' ts) {vm : Nat} (hvm : vm ∈ sh'.failed) :
    vm ∈ sh.failed ∨ t.holds vm = 1 ∧ sh'.free = sh.free ∧ ts.map (Thread.holds vm) = [0] := by
  cases h with
  | resetFails =>
    rcases List.mem_cons.mp hvm with rfl | hvm
    · exact .inr ⟨by simp [holds, Thread.vm], rfl, by simp [holds, Thread.vm]⟩
    · exact .inl hvm
  | _ => exact .inl hvm

theorem Thread.Step.borrowed {sh sh' : Shared} {t : Thread} {ev : Option Event} {ts : List Thread}
    (h : t.Step sh ev sh' ts) : sh'.borrowCount - sh'.returnCount + t.borrowed =
      sh.borrowCount - sh.returnCount + (ts.map Thread.borrowed).sum := by
  cases h <;> simp [Thread.borrowed] <;> omega

theorem Thread.Step.active {sh sh' : Shared} {t : Thread} {ev : Option Event} {ts : List Thread}
    (h : t.Step sh ev sh' ts) : sh'.activeCount + t.active = sh.activeCount + (ts.map Thread.active).sum := by
  cases h <;> simp [Thread.active]

theorem inv_init : PoolState.Inv {} where
  once vm := by
    rcases Nat.eq_zero_or_pos vm with rfl | hvm
    · decide
    · simp [PoolState.owners, Nat.ne_of_lt hvm]
  made vm hvm := by
    simp only [PoolState.owners, List.map_nil, List.sum_nil, Nat.add_zero]
    exact List.count_eq_zero.mpr fun h => by simp only [List.mem_singleton] at h; simp only at hvm; omega
  failed vm hvm := absurd hvm List.not_mem_nil
  borrowed := rfl
  active := rfl

theorem PoolState.Inv.run {pre post ts : List Thread} {t : Thread} {sh sh' : Shared} {ev : Option Event}
    (h : PoolState.Inv ⟨sh, pre ++ t :: post⟩) (hstep : t.Step sh ev sh' ts) :
    PoolState.Inv ⟨sh', pre ++ ts ++ post⟩ := by
  have hold : ∀ vm, PoolState.owners ⟨sh, pre ++ t :: post⟩ vm =
      sh.free.count vm + t.holds vm + ((pre.map (Thread.holds vm)).sum + (post.map (Thread.holds vm)).sum) :=
    fun vm => by simp [owners]; omega
  have hnew : ∀ vm, PoolState.owners ⟨sh', pre ++ ts ++ post⟩ vm = sh'.free.count vm +
      (ts.map (Thread.holds vm)).sum + ((pre.map (Thread.holds vm)).sum + (post.map (Thread.holds vm)).sum) :=
    fun vm => by simp [owners]; omega
  have hall := hstep.all_le
  refine ⟨fun vm => ?_, fun vm hvm => ?_, fun vm hvm => ?_, ?_, ?_⟩
  · have honce := h.once vm
    rw [hold] at honce
    rw [hnew]
    rcases hstep.owners vm with hle | ⟨rfl, _, hfree, ht, hts⟩
    · omega
    · have hmade := h.made sh.all (Nat.le_refl _)
      rw [hold] at hmade
      rw [hfree, hts]
      omega
  · have hmade := h.made vm (Nat.le_trans hall hvm)
    rw [hold] at hmade
    rw [hnew]
    rcases hstep.owners vm with hle | ⟨rfl, hnext, _⟩
    · omega
    · simp only at hvm
      omega
  · rcases hstep.failed hvm with hvm | ⟨ht, hfree, hts⟩
    · obtain ⟨hlt, hnone⟩ := h.failed vm hvm
      simp only at hlt
      rw [hold] at hnone
      refine ⟨Nat.lt_of_lt_of_le hlt hall, ?_⟩
      rw [hnew]
      rcases hstep.owners vm with hle | ⟨rfl, _⟩
      · omega
      · omega
    · have honce := h.once vm
      have hlt : vm < sh.all := by
        by_contra hge
        have hmade := h.made vm (by simpa using hge)
        rw [hold] at hmade
        omega
      rw [hold] at honce
      refine ⟨Nat.lt_of_lt_of_le hlt hall, ?_⟩
      rw [hnew, hfree, hts]
      simp only [List.sum_cons, List.sum_nil]
      omega
  · have hb := h.borrowed
    have hs := hstep.borrowed
    simp only [List.map_append, List.map_cons, List.sum_append, List.sum_cons] at hb ⊢
    omega
  · have ha := h.active
    have hs := hstep.active
    simp only [List.map_append, List.map_cons, List.sum_append, List.sum_cons] at ha ⊢
    omega

theorem PoolState.Inv.step {s s' : PoolState} {ev : Option Event} (h : s.Inv) (hstep : PoolStep s ev s') : s'.Inv := by
  cases hstep with
  | run hrun => exact h.run hrun
  | borrow =>
    refine ⟨fun vm => ?_, fun vm hvm => ?_, fun vm hvm => ?_, ?_, ?_⟩
    · simpa [owners, Thread.holds, Thread.vm] using h.once vm
    · simpa [owners, Thread.holds, Thread.vm] using h.made vm hvm
    · simpa [owners, Thread.holds, Thread.vm] using h.failed vm hvm
    · simpa [Thread.borrowed] using h.borrowed
    · simpa [Thread.active] using h.active
  | close => exact ⟨h.once, h.made, h.failed, h.borrowed, h.active⟩

theorem Reachable.inv {s : PoolState} (h : Reachable s) : s.Inv := by
  induction h with
  | refl => exact inv_init
  | tail _ hstep ih =>
    obtain ⟨ev, hstep⟩ := hstep
    exact ih.step hstep

/-! ## Accounting -/

/-- No `borrow` and no return is in progress. -/
def PoolState.Quiet (s : PoolState) : Prop := ∀ t ∈ s.threads, ∃ vm, t = .handle vm

/-- The states that borrowers have, from the step that lends to the step that gives back. -/
def PoolState.lent (s : PoolState) : List Nat := s.threads.filterMap Thread.vm

theorem count_lent (ts : List Thread) (vm : Nat) : (ts.filterMap Thread.vm).count vm = (ts.map (Thread.holds vm)).sum := by
  induction ts with
  | nil => rfl
  | cons t ts ih =>
    rw [List.map_cons, List.sum_cons, ← ih, List.filterMap_cons]
    split
    · next h => simp [Thread.holds, h]
    · next h => simp [Thread.holds, h, List.count_cons]; omega

theorem PoolState.Quiet.sums {ts : List Thread} (h : ∀ t ∈ ts, ∃ vm, t = .handle vm) :
    (ts.map Thread.borrowed).sum = ts.length ∧ (ts.map Thread.active).sum = ts.length := by
  induction ts with
  | nil => exact ⟨rfl, rfl⟩
  | cons t ts ih =>
    obtain ⟨vm, rfl⟩ := h t List.mem_cons_self
    obtain ⟨hb, ha⟩ := ih fun t ht => h t (List.mem_cons_of_mem _ ht)
    simp only [List.map_cons, List.sum_cons, hb, ha, Thread.borrowed, Thread.active, List.length_cons]
    omega

structure PoolState.Accounts (s : PoolState) : Prop where
  /-- No state is lent to two borrowers. -/
  lent_once : s.lent.Nodup
  free_once : s.shared.free.Nodup
  disjoint : ∀ vm ∈ s.lent, vm ∉ s.shared.free
  /-- A state whose reset threw is neither lent nor free. -/
  failed : ∀ vm ∈ s.shared.failed, vm ∉ s.lent ∧ vm ∉ s.shared.free
  /-- What is lent next is with no borrower, no reset of it has thrown, and the pool is not closed. -/
  lends : ∀ vm s', PoolStep s (some (.lends vm)) s' → vm ∉ s.lent ∧ vm ∉ s.shared.failed ∧ s.shared.closed = false
  quiet : s.Quiet → s.shared.activeCount = s.shared.borrowCount - s.shared.returnCount ∧
    s.shared.activeCount = s.lent.length

theorem PoolState.Quiet.length {ts : List Thread} (h : ∀ t ∈ ts, ∃ vm, t = .handle vm) :
    (ts.filterMap Thread.vm).length = ts.length := by
  induction ts with
  | nil => rfl
  | cons t ts ih =>
    obtain ⟨vm, rfl⟩ := h t List.mem_cons_self
    rw [List.filterMap_cons]
    simpa [Thread.vm] using ih fun t ht => h t (List.mem_cons_of_mem _ ht)

theorem PoolState.Inv.accounts {s : PoolState} (h : s.Inv) : s.Accounts := by
  have hcount : ∀ vm, s.owners vm = s.shared.free.count vm + s.lent.count vm := fun vm => by
    rw [owners, lent, count_lent]
  have hnone : ∀ vm, s.owners vm = 0 → vm ∉ s.lent ∧ vm ∉ s.shared.free := fun vm h0 => by
    rw [hcount] at h0
    exact ⟨List.count_eq_zero.mp (by omega), List.count_eq_zero.mp (by omega)⟩
  have hdisjoint : ∀ vm ∈ s.lent, vm ∉ s.shared.free := fun vm hl hf => by
    have honce := h.once vm
    rw [hcount] at honce
    have := List.count_pos_iff.mpr hl
    have := List.count_pos_iff.mpr hf
    omega
  refine ⟨?_, ?_, hdisjoint, fun vm hvm => hnone vm (h.failed vm hvm).2, ?_, fun hq => ?_⟩
  · refine List.nodup_iff_count_le_one.mpr fun vm => ?_
    have honce := h.once vm
    rw [hcount] at honce
    omega
  · refine List.nodup_iff_count_le_one.mpr fun vm => ?_
    have honce := h.once vm
    rw [hcount] at honce
    omega
  · intro vm s' hstep
    cases hstep with
    | @run _ _ _ sh _ _ _ hrun =>
      cases hrun with
      | reuse hopen hfree =>
        have hmem : vm ∈ sh.free := by rw [hfree]; exact List.mem_append_right _ List.mem_cons_self
        exact ⟨fun hl => hdisjoint _ hl hmem, fun hf => (hnone _ (h.failed _ hf).2).2 hmem, hopen⟩
      | create hopen _ =>
        exact ⟨(hnone _ (h.made _ (Nat.le_refl _))).1, fun hf => Nat.lt_irrefl _ (h.failed _ hf).1, hopen⟩
  · have hsums := Quiet.sums hq
    have hb := h.borrowed
    have ha := h.active
    rw [hsums.1] at hb
    rw [hsums.2] at ha
    refine ⟨ha.trans hb.symm, ?_⟩
    rw [ha, lent, Quiet.length hq]

end Pineapple.LuaPool
