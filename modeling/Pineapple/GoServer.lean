import Mathlib.Logic.Relation
import Pineapple.Lib.RefCount

/-! # The Go server's snapshots (`pkg/server/server.go`)

A step is one access of one goroutine to the snapshot pointer, to a counter or to the engine and manager it
tears down, so every interleaving of requests, reloads and `Close` is a run. Snapshots are numbered as they
are published, and a configuration load by the reads of the configuration before it. A counter is an integer:
each of its references is a stack frame or a `Handle` of its own. -/

namespace Pineapple.GoServer

/-- `serverSnapshot`: the loads its engine and its resource manager come from, and its counter. -/
structure ServerSnapshot where
  engine : Nat
  resources : Nat
  refs : Int

def newSnapshot (engine resources : Nat) : ServerSnapshot := { engine, resources, refs := 1 }

/-- Where a goroutine stands. -/
inductive Goroutine
  /-- in `acquireSnapshot`, about to load the pointer -/
  | load
  /-- in `acquire`, about to load the counter -/
  | loadRefs (snap : Nat)
  | compareAndSwap (snap : Nat) (n : Int)
  /-- `acquireSnapshot` has returned: `Execute` is under way or a `Handle` is out -/
  | holder (snap : Nat)
  /-- in `release` -/
  | release (snap : Nat)
  /-- in `teardown`, about to stop the resource manager -/
  | stop (snap : Nat)
  | close (snap : Nat)
  /-- in `reloadConfig`, or in `NewServer` where `first` -/
  | readConfig (first : Bool)
  | newEngine (first : Bool) (data : Nat)
  | newManager (first : Bool) (data engine : Nat)
  | publish (first : Bool) (engine resources : Nat)
  /-- in `Close` -/
  | shutdown
  | gone

/-- What the goroutines share. `served` tells that `NewServer` has returned; the last three are logs. -/
structure Shared where
  snapshot : Option Nat := none
  snapshots : Nat → ServerSnapshot := fun _ => newSnapshot 0 0
  published : Nat := 0
  reads : Nat := 0
  served : Bool := false
  shutDown : Bool := false
  stopped : List Nat := []
  closed : List Nat := []

def Shared.refs (sh : Shared) (k : Nat) : Int := (sh.snapshots k).refs

def Shared.setRefs (sh : Shared) (k : Nat) (n : Int) : Shared :=
  { sh with snapshots := Function.update sh.snapshots k { sh.snapshots k with refs := n } }

/-- A new snapshot takes the pointer. -/
def Shared.publish (sh : Shared) (engine resources : Nat) : Shared :=
  { sh with
    snapshot := some sh.published
    snapshots := Function.update sh.snapshots sh.published (newSnapshot engine resources)
    published := sh.published + 1 }

/-- What is left to do with the snapshot a swap of the pointer gave back. -/
def retire : Option Nat → Goroutine
  | some k => .release k
  | none => .gone

/-- What `acquireSnapshot` returned. -/
structure Acquired where
  snap : Option Nat

inductive Goroutine.Step : Shared → Goroutine → Option Acquired → Shared → Goroutine → Prop
  | loadNil {sh} : sh.snapshot = none → Step sh .load (some ⟨none⟩) sh .gone
  | load {sh k} : sh.snapshot = some k → Step sh .load none sh (.loadRefs k)
  /-- the snapshot is retired: `acquire` returns false and `acquireSnapshot` tries again -/
  | retired {sh k} : sh.refs k ≤ 0 → Step sh (.loadRefs k) none sh .load
  | loadRefs {sh k} : 0 < sh.refs k → Step sh (.loadRefs k) none sh (.compareAndSwap k (sh.refs k))
  | swapped {sh k n} : sh.refs k = n →
      Step sh (.compareAndSwap k n) (some ⟨some k⟩) (sh.setRefs k (n + 1)) (.holder k)
  | lost {sh k n} : sh.refs k ≠ n → Step sh (.compareAndSwap k n) none sh (.loadRefs k)
  | finish {sh k} : Step sh (.holder k) none sh (.release k)
  /-- `refs.Add(-1)`, not the last reference -/
  | drop {sh k} : sh.refs k ≠ 1 → Step sh (.release k) none (sh.setRefs k (sh.refs k - 1)) .gone
  | dropLast {sh k} : sh.refs k = 1 → Step sh (.release k) none (sh.setRefs k (sh.refs k - 1)) (.stop k)
  | stop {sh k} : Step sh (.stop k) none { sh with stopped := k :: sh.stopped } (.close k)
  | close {sh k} : Step sh (.close k) none { sh with closed := k :: sh.closed } .gone
  | readConfig {sh first} :
      Step sh (.readConfig first) none { sh with reads := sh.reads + 1 } (.newEngine first sh.reads)
  | newEngine {sh first data} : Step sh (.newEngine first data) none sh (.newManager first data data)
  | newManager {sh first data engine} : Step sh (.newManager first data engine) none sh (.publish first engine data)
  /-- the configuration is not read, or the engine or the manager not made: the load is given up -/
  | giveUp {sh first g} : g = .readConfig first ∨ (∃ data, g = .newEngine first data) ∨
      (∃ data engine, g = .newManager first data engine) → Step sh g none sh .gone
  /-- `snapshot.Store` in `NewServer` -/
  | store {sh engine resources} :
      Step sh (.publish true engine resources) none { sh.publish engine resources with served := true } .gone
  /-- `snapshot.Swap` in `reloadConfig` -/
  | swap {sh engine resources} :
      Step sh (.publish false engine resources) none (sh.publish engine resources) (retire sh.snapshot)
  | shutdown {sh} : Step sh .shutdown none { sh with snapshot := none, shutDown := true } (retire sh.snapshot)

structure ServerState where
  shared : Shared := {}
  goroutines : List Goroutine := [.readConfig true]

inductive ServerStep : ServerState → Option Acquired → ServerState → Prop
  | run {pre g post sh ev sh' g'} : g.Step sh ev sh' g' →
      ServerStep ⟨sh, pre ++ g :: post⟩ ev ⟨sh', pre ++ g' :: post⟩
  /-- a request comes in, or the host calls `Acquire` -/
  | acquire {sh gs} : ServerStep ⟨sh, gs⟩ none ⟨sh, .load :: gs⟩
  | reloadConfig {sh gs} : sh.served = true → ServerStep ⟨sh, gs⟩ none ⟨sh, .readConfig false :: gs⟩
  | shutdown {sh gs} : sh.served = true → ServerStep ⟨sh, gs⟩ none ⟨sh, .shutdown :: gs⟩

def ServerReachable : ServerState → Prop :=
  Relation.ReflTransGen (fun s s' => ∃ ev, ServerStep s ev s') {}

/-! ## The invariant -/

namespace Goroutine

/-- The snapshot the goroutine has a reference to. -/
def reference? : Goroutine → Option Nat
  | holder k | release k => some k
  | _ => none

/-- The snapshot the goroutine has taken on to tear down and not stopped yet. -/
def stopping? : Goroutine → Option Nat
  | stop k => some k
  | _ => none

def closing? : Goroutine → Option Nat
  | close k => some k
  | _ => none

/-- `NewServer` is under way. -/
def isFirst : Goroutine → Bool
  | readConfig first | newEngine first _ | newManager first _ _ | publish first _ _ => first
  | _ => false

/-- What a goroutine knows of the shared state. -/
inductive Knows (sh : Shared) : Goroutine → Prop
  | load : Knows sh load
  | loadRefs {k} : k < sh.published → Knows sh (loadRefs k)
  | compareAndSwap {k n} : k < sh.published → 0 < n → Knows sh (compareAndSwap k n)
  | holder {k} : Knows sh (holder k)
  | release {k} : Knows sh (release k)
  | stop {k} : Knows sh (stop k)
  | close {k} : Knows sh (close k)
  | readConfig {first} : (first = false → sh.served = true) → Knows sh (readConfig first)
  | newEngine {first data} : (first = false → sh.served = true) → Knows sh (newEngine first data)
  | newManager {first data} : (first = false → sh.served = true) → Knows sh (newManager first data data)
  | publish {first data} : (first = false → sh.served = true) → Knows sh (publish first data data)
  | shutdown : sh.served = true → Knows sh shutdown
  | gone : Knows sh gone

end Goroutine

/-- Who has a reference: the pointer, as long as a snapshot is live, and goroutines. -/
def held (sh : Shared) (gs : List Goroutine) : List Nat := sh.snapshot.toList ++ gs.filterMap Goroutine.reference?

/-- The snapshots whose teardown has begun. -/
def tornDown (sh : Shared) (gs : List Goroutine) : List Nat := gs.filterMap Goroutine.stopping? ++ sh.stopped

structure ServerInv (sh : Shared) (gs : List Goroutine) : Prop where
  ledger : RefLedger (· < sh.published) sh.refs (held sh gs) (tornDown sh gs)
  /-- a stopped manager's engine is closed or about to be -/
  closes : sh.stopped.Perm (gs.filterMap Goroutine.closing? ++ sh.closed)
  sameLoad : ∀ k < sh.published, (sh.snapshots k).engine = (sh.snapshots k).resources
  knows : ∀ g ∈ gs, g.Knows sh
  first : gs.countP Goroutine.isFirst ≤ if sh.served then 0 else 1
  unserved : sh.served = false → sh.published = 0
  empty : sh.snapshot = none → sh.published = 0 ∨ sh.shutDown = true

namespace Goroutine.Knows
variable {sh sh' : Shared} {g : Goroutine}

theorem mono (h : g.Knows sh) (hle : sh.published ≤ sh'.published) (hserved : sh.served = true → sh'.served = true) :
    g.Knows sh' := by
  cases h with
  | loadRefs hk => exact .loadRefs (Nat.lt_of_lt_of_le hk hle)
  | compareAndSwap hk hn => exact .compareAndSwap (Nat.lt_of_lt_of_le hk hle) hn
  | readConfig hs => exact .readConfig fun hf => hserved (hs hf)
  | newEngine hs => exact .newEngine fun hf => hserved (hs hf)
  | newManager hs => exact .newManager fun hf => hserved (hs hf)
  | publish hs => exact .publish fun hf => hserved (hs hf)
  | load => exact .load
  | holder => exact .holder
  | release => exact .release
  | stop => exact .stop
  | close => exact .close
  | shutdown hs => exact .shutdown (hserved hs)
  | gone => exact .gone

theorem retire (sh : Shared) (old : Option Nat) : (GoServer.retire old).Knows sh := by
  cases old with
  | none => exact .gone
  | some k => exact .release

end Goroutine.Knows

theorem reference?_retire (old : Option Nat) : (retire old).reference? = old := by
  cases old <;> rfl

theorem filterMap_retire {β : Type} (f : Goroutine → Option β) (old : Option Nat) (gs : List Goroutine)
    (hrelease : ∀ k, f (.release k) = none) (hgone : f .gone = none) :
    (retire old :: gs).filterMap f = gs.filterMap f := by
  cases old with
  | none => exact List.filterMap_cons_none hgone
  | some k => exact List.filterMap_cons_none (hrelease k)

@[simp] theorem refs_setRefs_self (sh : Shared) (k : Nat) (n : Int) : (sh.setRefs k n).refs k = n := by
  simp [Shared.refs, Shared.setRefs]

theorem refs_setRefs_of_ne (sh : Shared) {j k : Nat} (h : j ≠ k) (n : Int) : (sh.setRefs k n).refs j = sh.refs j := by
  simp [Shared.refs, Shared.setRefs, h]

namespace ServerInv
variable {sh : Shared} {g g' : Goroutine} {gs gs' : List Goroutine}

theorem perm (h : ServerInv sh gs) (hp : gs'.Perm gs) : ServerInv sh gs' where
  ledger := h.ledger.perm ((hp.filterMap _).append_left _) ((hp.filterMap _).append_right _)
  closes := h.closes.trans ((hp.symm.filterMap _).append_right _)
  sameLoad := h.sameLoad
  knows g hg := h.knows g (hp.mem_iff.mp hg)
  first := by rw [hp.countP_eq]; exact h.first
  unserved := h.unserved
  empty := h.empty

/-- A goroutine goes on without touching a reference, a teardown or the shared state. -/
theorem move (h : ServerInv sh (g :: gs)) (href : g'.reference? = g.reference?)
    (hstop : g'.stopping? = g.stopping?) (hclose : g'.closing? = g.closing?)
    (hfirst : g'.isFirst = true → g.isFirst = true) (hknows : g'.Knows sh) : ServerInv sh (g' :: gs) where
  ledger := by
    have heq : ∀ f : Goroutine → Option Nat, f g' = f g → (g' :: gs).filterMap f = (g :: gs).filterMap f := by
      intro f hf
      rw [List.filterMap_cons, List.filterMap_cons, hf]
    unfold held tornDown
    rw [heq _ href, heq _ hstop]
    exact h.ledger
  closes := by
    rw [List.filterMap_cons, hclose, ← List.filterMap_cons]
    exact h.closes
  sameLoad := h.sameLoad
  knows x hx := by
    rcases List.mem_cons.mp hx with rfl | hx
    · exact hknows
    · exact h.knows x (List.mem_cons_of_mem _ hx)
  first := by
    have hle : (g' :: gs).countP Goroutine.isFirst ≤ (g :: gs).countP Goroutine.isFirst := by
      rw [List.countP_cons, List.countP_cons]
      split
      · next hg =>
        have hone : (if g.isFirst = true then 1 else 0) = 1 := if_pos (hfirst hg)
        omega
      · omega
    exact Nat.le_trans hle h.first
  unserved := h.unserved
  empty := h.empty

/-- The compare-and-swap of `acquire` takes a reference. -/
theorem swapped {k : Nat} {n : Int} (h : ServerInv sh (.compareAndSwap k n :: gs)) (hn : sh.refs k = n) :
    ServerInv (sh.setRefs k (n + 1)) (.holder k :: gs) := by
  obtain ⟨hk, hpos⟩ : k < sh.published ∧ 0 < n := by
    cases h.knows _ List.mem_cons_self with
    | compareAndSwap hk hpos => exact ⟨hk, hpos⟩
  have hledger := h.ledger.acquire (fun j hj => refs_setRefs_of_ne sh hj (n + 1)) hk (hn ▸ hpos)
    (by rw [refs_setRefs_self, hn])
  refine ⟨hledger.perm ?_ (List.Perm.refl _), h.closes, fun j hj => ?_, fun x hx => ?_, h.first, h.unserved, h.empty⟩
  · exact List.perm_middle
  · by_cases hjk : j = k
    · subst hjk
      simpa [Shared.setRefs] using h.sameLoad j hj
    · simpa [Shared.setRefs, hjk] using h.sameLoad j hj
  · rcases List.mem_cons.mp hx with rfl | hx
    · exact .holder
    · exact (h.knows x (List.mem_cons_of_mem _ hx)).mono (Nat.le_refl _) id

/-- A reference is dropped; the last one leaves the goroutine with the teardown. -/
theorem drop {k : Nat} (h : ServerInv sh (.release k :: gs)) :
    ServerInv (sh.setRefs k (sh.refs k - 1)) ((if sh.refs k = 1 then .stop k else .gone) :: gs) := by
  have hledger : RefLedger (· < sh.published) sh.refs (k :: held sh gs) (tornDown sh gs) :=
    h.ledger.perm List.perm_middle.symm (List.Perm.refl _)
  have hne := fun (j : Nat) (hj : j ≠ k) => refs_setRefs_of_ne sh hj (sh.refs k - 1)
  have hsame : ∀ j < sh.published, ((sh.setRefs k (sh.refs k - 1)).snapshots j).engine =
      ((sh.setRefs k (sh.refs k - 1)).snapshots j).resources := by
    intro j hj
    by_cases hjk : j = k
    · subst hjk
      simpa [Shared.setRefs] using h.sameLoad j hj
    · simpa [Shared.setRefs, hjk] using h.sameLoad j hj
  have hknows : ∀ x ∈ gs, x.Knows (sh.setRefs k (sh.refs k - 1)) := fun x hx =>
    (h.knows x (List.mem_cons_of_mem _ hx)).mono (Nat.le_refl _) id
  by_cases hlast : sh.refs k = 1
  · rw [if_pos hlast]
    refine ⟨hledger.releaseLast hne (refs_setRefs_self ..) hlast, h.closes, hsame, fun x hx => ?_, h.first, h.unserved,
      h.empty⟩
    rcases List.mem_cons.mp hx with rfl | hx
    · exact .stop
    · exact hknows x hx
  · rw [if_neg hlast]
    refine ⟨hledger.release hne (refs_setRefs_self ..) hlast, h.closes, hsame, fun x hx => ?_, h.first, h.unserved,
      h.empty⟩
    rcases List.mem_cons.mp hx with rfl | hx
    · exact .gone
    · exact hknows x hx

theorem stop {k : Nat} (h : ServerInv sh (.stop k :: gs)) :
    ServerInv { sh with stopped := k :: sh.stopped } (.close k :: gs) where
  ledger := h.ledger.perm (List.Perm.refl _) List.perm_middle
  closes := h.closes.cons k
  sameLoad := h.sameLoad
  knows x hx := by
    rcases List.mem_cons.mp hx with rfl | hx
    · exact .close
    · exact (h.knows x (List.mem_cons_of_mem _ hx)).mono (Nat.le_refl _) id
  first := h.first
  unserved := h.unserved
  empty := h.empty

theorem close {k : Nat} (h : ServerInv sh (.close k :: gs)) :
    ServerInv { sh with closed := k :: sh.closed } (.gone :: gs) where
  ledger := h.ledger
  closes := h.closes.trans List.perm_middle.symm
  sameLoad := h.sameLoad
  knows x hx := by
    rcases List.mem_cons.mp hx with rfl | hx
    · exact .gone
    · exact (h.knows x (List.mem_cons_of_mem _ hx)).mono (Nat.le_refl _) id
  first := h.first
  unserved := h.unserved
  empty := h.empty

/-- While `NewServer` is under way it is alone at that, and nothing is published. -/
theorem first_alone (h : ServerInv sh (g :: gs)) (hg : g.isFirst = true) :
    sh.served = false ∧ gs.countP Goroutine.isFirst = 0 := by
  have hfirst := h.first
  rw [List.countP_cons, if_pos hg] at hfirst
  cases hs : sh.served with
  | true =>
    rw [hs, if_pos rfl] at hfirst
    omega
  | false =>
    rw [hs, if_neg Bool.false_ne_true] at hfirst
    exact ⟨rfl, by omega⟩

/-- A new snapshot takes the pointer, and the reference to the old one passes to the goroutine. -/
theorem publish {first : Bool} {engine resources : Nat} (h : ServerInv sh (.publish first engine resources :: gs))
    (served : Bool) (hserved : served = (sh.served || first)) :
    ServerInv { sh.publish engine resources with served } (retire sh.snapshot :: gs) := by
  obtain ⟨rfl, hlate⟩ : resources = engine ∧ (first = false → sh.served = true) := by
    cases h.knows _ List.mem_cons_self with
    | publish hs => exact ⟨rfl, hs⟩
  have htrue : served = true := by
    cases first with
    | true => rw [hserved, Bool.or_true]
    | false => rw [hserved, hlate rfl]; rfl
  have hne : ∀ j, j ≠ sh.published → (sh.publish resources resources).refs j = sh.refs j := by
    intro j hj
    simp [Shared.refs, Shared.publish, hj]
  have hnew : (sh.publish resources resources).refs sh.published = 1 := by
    simp [Shared.refs, Shared.publish, newSnapshot]
  have hledger := h.ledger.create hne (Nat.lt_irrefl _)
    (fun j => (by simp only [Shared.publish]; omega : j < (sh.publish resources resources).published ↔ _)) hnew
  have hheld : held { sh.publish resources resources with served } (retire sh.snapshot :: gs) =
      sh.published :: held sh (.publish first resources resources :: gs) := by
    have href : (retire sh.snapshot :: gs).filterMap Goroutine.reference? =
        sh.snapshot.toList ++ gs.filterMap Goroutine.reference? := by
      rw [← List.singleton_append, List.filterMap_append]
      cases sh.snapshot <;> rfl
    show [sh.published] ++ _ = _
    rw [href]
    rfl
  have htorn : tornDown { sh.publish resources resources with served } (retire sh.snapshot :: gs) =
      tornDown sh (.publish first resources resources :: gs) := by
    unfold tornDown
    rw [filterMap_retire _ _ _ (fun _ => rfl) rfl]
    rfl
  refine ⟨by rw [hheld, htorn]; exact hledger, ?_, fun j hj => ?_, fun x hx => ?_, ?_, fun hf => ?_, fun hf => ?_⟩
  · rw [filterMap_retire _ _ _ (fun _ => rfl) rfl]
    exact h.closes
  · by_cases hjk : j = sh.published
    · subst hjk
      simp [Shared.publish, newSnapshot]
    · have hj : j < sh.published + 1 := hj
      simpa [Shared.publish, hjk] using h.sameLoad j (by omega)
  · rcases List.mem_cons.mp hx with rfl | hx
    · exact Goroutine.Knows.retire ..
    · exact (h.knows x (List.mem_cons_of_mem _ hx)).mono (Nat.le_succ _) fun _ => htrue
  · have hfirst := h.first
    have hretire : (retire sh.snapshot).isFirst = false := by cases sh.snapshot <;> rfl
    rw [List.countP_cons, hretire]
    rw [List.countP_cons] at hfirst
    show gs.countP Goroutine.isFirst + 0 ≤ if served then 0 else 1
    rw [htrue]
    cases first with
    | true => exact Nat.le_of_eq (h.first_alone rfl).2
    | false =>
      have : (Goroutine.publish false resources resources).isFirst = false := rfl
      rw [this, hlate rfl] at hfirst
      simpa using hfirst
  · exact absurd (htrue.symm.trans hf) (by simp)
  · exact absurd hf (by simp [Shared.publish])

/-- `Close` empties the pointer. -/
theorem shutdown (h : ServerInv sh (.shutdown :: gs)) :
    ServerInv { sh with snapshot := none, shutDown := true } (retire sh.snapshot :: gs) where
  ledger := by
    have hheld : held { sh with snapshot := none, shutDown := true } (retire sh.snapshot :: gs) =
        held sh (.shutdown :: gs) := by
      unfold held
      cases sh.snapshot <;> rfl
    have htorn : tornDown { sh with snapshot := none, shutDown := true } (retire sh.snapshot :: gs) =
        tornDown sh (.shutdown :: gs) := by
      unfold tornDown
      rw [filterMap_retire _ _ _ (fun _ => rfl) rfl]
      rfl
    rw [hheld, htorn]
    exact h.ledger
  closes := by
    rw [filterMap_retire _ _ _ (fun _ => rfl) rfl]
    exact h.closes
  sameLoad := h.sameLoad
  knows x hx := by
    rcases List.mem_cons.mp hx with rfl | hx
    · exact Goroutine.Knows.retire ..
    · exact (h.knows x (List.mem_cons_of_mem _ hx)).mono (Nat.le_refl _) id
  first := by
    have hretire : (retire sh.snapshot).isFirst = false := by cases sh.snapshot <;> rfl
    rw [List.countP_cons, hretire]
    exact h.first
  unserved := h.unserved
  empty _ := Or.inr rfl

/-- Every step keeps the invariant. -/
theorem step {ev : Option Acquired} {sh' : Shared} (h : ServerInv sh (g :: gs)) (hstep : g.Step sh ev sh' g') :
    ServerInv sh' (g' :: gs) := by
  have hknown := h.knows g List.mem_cons_self
  cases hstep with
  | loadNil _ => exact h.move rfl rfl rfl nofun .gone
  | load hk =>
    have hmem := h.ledger.held_made _ (List.mem_append_left _ (Option.mem_toList.mpr hk))
    exact h.move rfl rfl rfl nofun (.loadRefs hmem)
  | retired _ => exact h.move rfl rfl rfl nofun .load
  | loadRefs hpos =>
    cases hknown with
    | loadRefs hk => exact h.move rfl rfl rfl nofun (.compareAndSwap hk hpos)
  | swapped hn => exact h.swapped hn
  | lost _ =>
    cases hknown with
    | compareAndSwap hk _ => exact h.move rfl rfl rfl nofun (.loadRefs hk)
  | finish => exact h.move rfl rfl rfl nofun .release
  | @drop k hmore =>
    have := h.drop
    rwa [if_neg hmore] at this
  | @dropLast k hlast =>
    have := h.drop
    rwa [if_pos hlast] at this
  | stop => exact h.stop
  | close => exact h.close
  | @readConfig first =>
    cases hknown with
    | readConfig hs =>
      have hmoved : ServerInv sh (.newEngine first sh.reads :: gs) := h.move rfl rfl rfl id (.newEngine hs)
      exact ⟨hmoved.ledger, hmoved.closes, hmoved.sameLoad, fun x hx => (hmoved.knows x hx).mono (Nat.le_refl _) id,
        hmoved.first, hmoved.unserved, hmoved.empty⟩
  | newEngine =>
    cases hknown with
    | newEngine hs => exact h.move rfl rfl rfl id (.newManager hs)
  | newManager =>
    cases hknown with
    | newManager hs => exact h.move rfl rfl rfl id (.publish hs)
  | giveUp hg =>
    rcases hg with rfl | ⟨data, rfl⟩ | ⟨data, engine, rfl⟩
    · exact h.move rfl rfl rfl nofun .gone
    · exact h.move rfl rfl rfl nofun .gone
    · exact h.move rfl rfl rfl nofun .gone
  | store =>
    have hunserved : sh.served = false := (h.first_alone rfl).1
    have hnone : sh.snapshot = none := by
      cases hk : sh.snapshot with
      | none => rfl
      | some k =>
        have := h.ledger.held_made k (List.mem_append_left _ (Option.mem_toList.mpr hk))
        rw [h.unserved hunserved] at this
        exact absurd this (Nat.not_lt_zero k)
    have := h.publish true (by rw [Bool.or_true])
    rwa [hnone] at this
  | swap => exact h.publish sh.served (by rw [Bool.or_false])
  | shutdown => exact h.shutdown

theorem init : ServerInv {} [.readConfig true] where
  ledger := ⟨fun _ h => absurd h (Nat.not_lt_zero _), by simp [held, Goroutine.reference?],
    by simp [tornDown, Goroutine.stopping?], fun _ h => absurd h (Nat.not_lt_zero _)⟩
  closes := List.Perm.refl _
  sameLoad _ h := absurd h (Nat.not_lt_zero _)
  knows x hx := by
    rw [List.mem_singleton.mp hx]
    exact .readConfig nofun
  first := by decide
  unserved _ := rfl
  empty _ := Or.inl rfl

/-- A new goroutine that has not done anything yet. -/
theorem spawn (h : ServerInv sh gs) (href : g.reference? = none) (hstop : g.stopping? = none)
    (hclose : g.closing? = none) (hfirst : g.isFirst = false) (hknows : g.Knows sh) : ServerInv sh (g :: gs) where
  ledger := by
    unfold held tornDown
    rw [List.filterMap_cons_none href, List.filterMap_cons_none hstop]
    exact h.ledger
  closes := by
    rw [List.filterMap_cons_none hclose]
    exact h.closes
  sameLoad := h.sameLoad
  knows x hx := by
    rcases List.mem_cons.mp hx with rfl | hx
    · exact hknows
    · exact h.knows x hx
  first := by
    rw [List.countP_cons, hfirst]
    exact h.first
  unserved := h.unserved
  empty := h.empty

theorem reachable {s : ServerState} (hr : ServerReachable s) : ServerInv s.shared s.goroutines := by
  induction hr with
  | refl => exact init
  | tail _ hstep ih =>
    obtain ⟨ev, hstep⟩ := hstep
    cases hstep with
    | run hg => exact ((ih.perm List.perm_middle.symm).step hg).perm List.perm_middle
    | acquire => exact ih.spawn rfl rfl rfl rfl .load
    | reloadConfig hs => exact ih.spawn rfl rfl rfl rfl (.readConfig fun _ => hs)
    | shutdown hs => exact ih.spawn rfl rfl rfl rfl (.shutdown hs)

end ServerInv

/-! ## The life of a snapshot -/

/-- What the server owes in one state. -/
structure SnapshotSafe (s : ServerState) : Prop where
  /-- no snapshot is torn down twice -/
  once : (tornDown s.shared s.goroutines).Nodup ∧ s.shared.stopped.Nodup ∧ s.shared.closed.Nodup
  /-- the teardown of a snapshot has not begun while somebody has a reference to it -/
  notHeld : ∀ k ∈ tornDown s.shared s.goroutines, .holder k ∉ s.goroutines ∧ .release k ∉ s.goroutines ∧
    s.shared.snapshot ≠ some k
  /-- it has begun once the snapshot is retired and its holders have released it -/
  due : ∀ k < s.shared.published, s.shared.snapshot ≠ some k → .holder k ∉ s.goroutines → .release k ∉ s.goroutines →
    k ∈ tornDown s.shared s.goroutines
  /-- and it is complete when no goroutine is at it any more -/
  complete : ∀ k ∈ tornDown s.shared s.goroutines, .stop k ∉ s.goroutines → .close k ∉ s.goroutines →
    k ∈ s.shared.stopped ∧ k ∈ s.shared.closed
  sameLoad : ∀ k, .holder k ∈ s.goroutines → (s.shared.snapshots k).engine = (s.shared.snapshots k).resources

/-- What `acquireSnapshot` may return. -/
def Acquired.Ok (s : ServerState) (r : Acquired) : Prop :=
  match r.snap with
  | some k => k < s.shared.published ∧ k ∉ tornDown s.shared s.goroutines
  | none => s.shared.snapshot = none ∧ (s.shared.published = 0 ∨ s.shared.shutDown = true)

theorem mem_filterMap_phase {f : Goroutine → Option Nat} {c : Nat → Goroutine} {gs : List Goroutine} {k : Nat}
    (hf : ∀ g, f g = some k ↔ g = c k) : k ∈ gs.filterMap f ↔ c k ∈ gs := by
  rw [List.mem_filterMap]
  constructor
  · rintro ⟨g, hg, hk⟩
    rw [← (hf g).mp hk]
    exact hg
  · exact fun hg => ⟨_, hg, (hf _).mpr rfl⟩

theorem mem_held {sh : Shared} {gs : List Goroutine} {k : Nat} :
    k ∈ held sh gs ↔ sh.snapshot = some k ∨ .holder k ∈ gs ∨ .release k ∈ gs := by
  unfold held
  rw [List.mem_append, Option.mem_toList, List.mem_filterMap]
  refine or_congr Iff.rfl ⟨?_, ?_⟩
  · rintro ⟨g, hg, hk⟩
    cases g with
    | holder j => exact Or.inl (Option.some.inj hk ▸ hg)
    | release j => exact Or.inr (Option.some.inj hk ▸ hg)
    | _ => cases hk
  · rintro (hg | hg)
    · exact ⟨_, hg, rfl⟩
    · exact ⟨_, hg, rfl⟩

theorem ServerInv.safe {s : ServerState} (h : ServerInv s.shared s.goroutines) : SnapshotSafe s := by
  have hstop : ∀ k, k ∈ s.goroutines.filterMap Goroutine.stopping? ↔ .stop k ∈ s.goroutines := fun k =>
    mem_filterMap_phase fun g => by cases g <;> simp [Goroutine.stopping?]
  have hclose : ∀ k, k ∈ s.goroutines.filterMap Goroutine.closing? ↔ .close k ∈ s.goroutines := fun k =>
    mem_filterMap_phase fun g => by cases g <;> simp [Goroutine.closing?]
  have hstopped : s.shared.stopped.Nodup := (List.nodup_append'.mp h.ledger.ended_nodup).2.1
  refine ⟨⟨h.ledger.ended_nodup, hstopped, ?_⟩, fun k hk => ?_, fun k hk hp hh hr => ?_, fun k hk hs hc => ?_,
    fun k hk => ?_⟩
  · exact (List.nodup_append'.mp (h.closes.nodup_iff.mp hstopped)).2.1
  · have hfree := h.ledger.not_held hk
    rw [mem_held] at hfree
    exact ⟨fun hg => hfree (Or.inr (Or.inl hg)), fun hg => hfree (Or.inr (Or.inr hg)), fun hp => hfree (Or.inl hp)⟩
  · refine (h.ledger.mem_ended_iff hk).mpr fun hheld => ?_
    rcases mem_held.mp hheld with hg | hg | hg
    · exact hp hg
    · exact hh hg
    · exact hr hg
  · have hin : k ∈ s.shared.stopped := by
      rcases List.mem_append.mp hk with hk | hk
      · exact absurd ((hstop k).mp hk) hs
      · exact hk
    refine ⟨hin, ?_⟩
    rcases List.mem_append.mp (h.closes.mem_iff.mp hin) with hk | hk
    · exact absurd ((hclose k).mp hk) hc
    · exact hk
  · exact h.sameLoad k (h.ledger.held_made k (mem_held.mpr (Or.inr (Or.inl hk))))

/-- In every run a snapshot lives as long as it is published or referred to, and no longer. -/
theorem snapshot_lifetime (s : ServerState) (hs : ServerReachable s) :
    SnapshotSafe s ∧ ∀ r s', ServerStep s (some r) s' → r.Ok s := by
  have h := ServerInv.reachable hs
  refine ⟨h.safe, fun r s' hstep => ?_⟩
  cases hstep with
  | @run pre g post _ _ _ g' hg =>
    cases hg with
    | loadNil hnone => exact ⟨hnone, h.empty hnone⟩
    | @swapped k n hn =>
      have hmem : .compareAndSwap k n ∈ pre ++ .compareAndSwap k n :: post := List.mem_append_right _ List.mem_cons_self
      cases h.knows _ hmem with
      | compareAndSwap hk hpos =>
        refine ⟨hk, fun htorn => h.ledger.not_held htorn ((h.ledger.pos_iff hk).mp ?_)⟩
        rw [hn]
        exact hpos

/-- The server after `NewServer`. -/
def served : ServerState :=
  ⟨{ ({ reads := 1 } : Shared).publish 0 0 with served := true }, [.gone]⟩

theorem reachable_served : ServerReachable served := by
  have hrun : ∀ {sh ev sh' g g'}, g.Step sh ev sh' g' → ServerStep ⟨sh, [g]⟩ ev ⟨sh', [g']⟩ := fun hg =>
    @ServerStep.run [] _ [] _ _ _ _ hg
  refine (((Relation.ReflTransGen.single ⟨_, hrun .readConfig⟩).tail ⟨_, hrun .newEngine⟩).tail
    ⟨_, hrun .newManager⟩).tail ⟨_, hrun .store⟩

/-- The first request gets the first snapshot, on which nothing is torn down. -/
theorem snapshot_lifetime_served :
    SnapshotSafe served ∧ ∀ r s', ServerStep served (some r) s' → r.Ok served :=
  snapshot_lifetime served reachable_served

end Pineapple.GoServer
