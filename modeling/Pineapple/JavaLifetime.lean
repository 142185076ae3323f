import Pineapple.JavaServer

/-! # The lifetime of resources and snapshots

The references to the snapshots are counted as in `RefLedger`: the server's pointer, the requests, and the load that
has made a snapshot and not yet handed it over. A snapshot with a reference has not been torn down, and the values its
manager has fetched are open. -/

namespace Pineapple.JavaServer

open JavaManager

namespace Thread

/-- The snapshot the thread has a reference to. -/
def reference? : Thread → Option Nat
  | holder k | release k _ => some k
  | _ => none

/-- A snapshot that a thread has got from the server's pointer was published. -/
inductive Knows (published : List Nat) : Thread → Prop
  | load : Knows published load
  | loadRefs {k} : k ∈ published → Knows published (loadRefs k)
  | compareAndSet {k n} : k ∈ published → 0 < n → Knows published (compareAndSet k n)
  | holder {k} : k ∈ published → Knows published (holder k)
  | release {k locked} : k ∈ published → Knows published (release k locked)
  | tearing {k locked} : Knows published (tearing k locked)
  | unlock : Knows published unlock
  | shutdown : Knows published shutdown
  | gone : Knows published gone

end Thread

/-- Loads with the only reference to their snapshot. -/
def owners (sh : Shared) : List Nat := (List.range sh.count).filter fun k => (sh.loads k).loader.owns

def held (sh : Shared) (ts : List Thread) : List Nat :=
  sh.snapshot.toList ++ ts.filterMap Thread.reference? ++ owners sh

structure Inv (sh : Shared) (ts : List Thread) : Prop where
  loads : ∀ k < sh.count, (sh.loads k).Inv
  ledger : RefLedger sh.Made sh.refs (held sh ts) sh.tornDown
  tornDown : ∀ k < sh.count, k ∈ sh.tornDown ↔ (sh.loads k).teardown ≠ .none
  published : ∀ k, k ∈ sh.published ↔ k < sh.count ∧ (sh.loads k).loader = .published
  snapshot : sh.snapshot = if sh.closed then none else sh.published.head?
  knows : ∀ t ∈ ts, t.Knows sh.published

variable {sh sh' : Shared} {t t' : Thread} {ts ts' : List Thread} {k : Nat} {L : Load}

theorem Thread.Knows.mono {published published' : List Nat} (h : t.Knows published)
    (hsub : published ⊆ published') : t.Knows published' := by
  cases h with
  | loadRefs hk => exact .loadRefs (hsub hk)
  | compareAndSet hk hn => exact .compareAndSet (hsub hk) hn
  | holder hk => exact .holder (hsub hk)
  | release hk => exact .release (hsub hk)
  | load => exact .load
  | tearing => exact .tearing
  | unlock => exact .unlock
  | shutdown => exact .shutdown
  | gone => exact .gone

theorem Thread.Knows.reference {published : List Nat} (h : t.Knows published) (hk : t.reference? = some k) :
    k ∈ published := by
  cases h with
  | holder hm | release hm =>
    cases hk
    exact hm
  | _ => cases hk

theorem Thread.Knows.returns (published : List Nat) (locked : Bool) : (Thread.returns locked).Knows published := by
  cases locked with
  | true => exact .unlock
  | false => exact .gone

theorem Thread.reference?_returns (locked : Bool) : (Thread.returns locked).reference? = none := by
  cases locked <;> rfl

@[simp] theorem loads_setLoad_self (sh : Shared) (k : Nat) (L : Load) : (sh.setLoad k L).loads k = L := by
  simp [Shared.setLoad]

theorem loads_setLoad_of_ne (sh : Shared) {j k : Nat} (h : j ≠ k) (L : Load) :
    (sh.setLoad k L).loads j = sh.loads j := by
  simp [Shared.setLoad, h]

theorem made_setLoad (hmade : L.made = (sh.loads k).made) : (sh.setLoad k L).Made = sh.Made := by
  funext j
  by_cases hj : j = k
  · subst hj
    simp [Shared.Made, Shared.setLoad, hmade]
  · simp [Shared.Made, Shared.setLoad, hj]

theorem refs_setLoad_of_ne (sh : Shared) {j k : Nat} (h : j ≠ k) (L : Load) : (sh.setLoad k L).refs j = sh.refs j := by
  rw [Shared.refs, loads_setLoad_of_ne sh h]
  rfl

theorem refs_setLoad (hrefs : L.refs = (sh.loads k).refs) : (sh.setLoad k L).refs = sh.refs := by
  funext j
  by_cases hj : j = k
  · rw [hj, Shared.refs, loads_setLoad_self, hrefs]
    rfl
  · exact refs_setLoad_of_ne sh hj L

theorem made_setRefs (sh : Shared) (k : Nat) (n : Int) : (sh.setRefs k n).Made = sh.Made := made_setLoad rfl

theorem refs_setRefs_self (sh : Shared) (k : Nat) (n : Int) : (sh.setRefs k n).refs k = n := by
  rw [Shared.refs, Shared.setRefs, loads_setLoad_self]

theorem refs_setRefs_of_ne (sh : Shared) {j k : Nat} (h : j ≠ k) (n : Int) : (sh.setRefs k n).refs j = sh.refs j :=
  refs_setLoad_of_ne sh h _

theorem refs_tearDown_of_ne (sh : Shared) {j k : Nat} (h : j ≠ k) : (sh.tearDown k).refs j = sh.refs j :=
  refs_setLoad_of_ne sh h _

theorem refs_tearDown_self (sh : Shared) (k : Nat) : (sh.tearDown k).refs k = sh.refs k - 1 := by
  simp [Shared.refs, Shared.tearDown]

theorem made_tearDown (sh : Shared) (k : Nat) : (sh.tearDown k).Made = sh.Made :=
  (made_setLoad rfl :
    (sh.setLoad k { sh.loads k with refs := sh.refs k - 1, teardown := .stop .enter }).Made = sh.Made)

/-! ## The owners -/

theorem owners_congr {sh sh' : Shared} (hcount : sh'.count = sh.count)
    (h : ∀ j < sh.count, (sh'.loads j).loader.owns = (sh.loads j).loader.owns) : owners sh' = owners sh := by
  unfold owners
  rw [hcount]
  exact List.filter_congr fun j hj => h j (List.mem_range.mp hj)

theorem owners_setLoad (howns : L.loader.owns = (sh.loads k).loader.owns) :
    owners (sh.setLoad k L) = owners sh := by
  refine owners_congr rfl fun j _ => ?_
  by_cases hj : j = k
  · rw [hj, loads_setLoad_self, howns]
  · rw [loads_setLoad_of_ne sh hj]

theorem held_setRefs (sh : Shared) (k : Nat) (n : Int) (ts : List Thread) : held (sh.setRefs k n) ts = held sh ts := by
  unfold held
  rw [show owners (sh.setRefs k n) = owners sh from owners_setLoad rfl]
  rfl

theorem held_tearDown (sh : Shared) (k : Nat) (ts : List Thread) : held (sh.tearDown k) ts = held sh ts := by
  have howners : owners (sh.setLoad k { sh.loads k with refs := sh.refs k - 1, teardown := .stop .enter }) =
      owners sh := owners_setLoad rfl
  unfold held
  rw [← howners]
  rfl

/-- The load becomes the owner of its snapshot, or is so no more. -/
theorem owners_perm (hcount : sh'.count = sh.count) (hk : k < sh.count)
    (hne : ∀ j, j ≠ k → (sh'.loads j).loader.owns = (sh.loads j).loader.owns)
    (howns : (sh'.loads k).loader.owns = true) (hnot : (sh.loads k).loader.owns = false) :
    (owners sh').Perm (k :: owners sh) := by
  have hnodup : ∀ sh : Shared, (owners sh).Nodup := fun sh => List.nodup_range.filter _
  have hout : k ∉ owners sh := by simp [owners, hnot]
  refine (List.perm_ext_iff_of_nodup (hnodup _) (List.nodup_cons.mpr ⟨hout, hnodup _⟩)).mpr fun j => ?_
  by_cases hj : j = k
  · subst hj
    simp [owners, hcount, hk, howns]
  · simp [owners, hcount, hne j hj, hj]

namespace Inv

theorem init : Inv {} [] where
  loads k hk := absurd hk (Nat.not_lt_zero k)
  ledger := by
    have hfalse : ({} : Shared).Made = fun _ => False := by
      funext k
      simp [Shared.Made]
    rw [hfalse]
    exact RefLedger.nil _
  tornDown k hk := absurd hk (Nat.not_lt_zero k)
  published k := by simp
  snapshot := rfl
  knows t ht := by simp at ht

theorem perm (h : Inv sh ts) (hp : ts'.Perm ts) : Inv sh ts' where
  loads := h.loads
  ledger := h.ledger.perm (((hp.filterMap _).append_left _).append_right _) (List.Perm.refl _)
  tornDown := h.tornDown
  published := h.published
  snapshot := h.snapshot
  knows t ht := h.knows t (hp.mem_iff.mp ht)

/-- The lock is taken or left. -/
theorem lock (h : Inv sh ts) (b : Bool) : Inv { sh with stopLock := b } ts :=
  ⟨h.loads, h.ledger, h.tornDown, h.published, h.snapshot, h.knows⟩

/-! ### What is known of a snapshot -/

theorem published_of_snapshot (h : Inv sh ts) (hk : sh.snapshot = some k) : k ∈ sh.published := by
  have hsnap := h.snapshot
  rw [hk] at hsnap
  cases hc : sh.closed with
  | true => simp [hc] at hsnap
  | false =>
    simp only [hc, Bool.false_eq_true, if_false] at hsnap
    exact List.mem_of_mem_head? hsnap.symm

/-- A reference keeps the teardown away. -/
theorem live_of_held (h : Inv sh ts) (hk : k ∈ held sh ts) :
    k < sh.count ∧ (sh.loads k).made = true ∧ (sh.loads k).teardown = .none ∧ (sh.loads k).manager.Live := by
  obtain ⟨hlt, hmade⟩ := h.ledger.held_made k hk
  have hnot : k ∉ sh.tornDown := fun ht => h.ledger.not_held ht hk
  have hnone : (sh.loads k).teardown = .none := by
    by_contra hne
    exact hnot ((h.tornDown k hlt).mpr hne)
  exact ⟨hlt, hmade, hnone, ((h.loads k hlt).of_made hmade hnone).2.1⟩

/-- A load that owns its snapshot has the only reference to it. -/
theorem refs_of_owner (h : Inv sh ts) (hlt : k < sh.count) (howns : (sh.loads k).loader.owns = true) :
    k ∈ held sh ts ∧ sh.refs k = 1 := by
  have hunpub : k ∉ sh.published := by
    intro hp
    rw [((h.published k).mp hp).2] at howns
    cases howns
  have hmem : k ∈ owners sh := List.mem_filter.mpr ⟨List.mem_range.mpr hlt, howns⟩
  have hheld : k ∈ held sh ts := List.mem_append_right _ hmem
  have hpointer : sh.snapshot.toList.count k = 0 := by
    rw [List.count_eq_zero, Option.mem_toList]
    exact fun hs => hunpub (h.published_of_snapshot hs)
  have hthreads : (ts.filterMap Thread.reference?).count k = 0 := by
    rw [List.count_eq_zero]
    intro hm
    obtain ⟨t, ht, href⟩ := List.mem_filterMap.mp hm
    exact hunpub ((h.knows t ht).reference href)
  have hone : (owners sh).count k = 1 := List.count_eq_one_of_mem (List.nodup_range.filter _) hmem
  have hrefs := h.ledger.refs k (h.ledger.held_made k hheld)
  rw [held, List.count_append, List.count_append, hpointer, hthreads, hone] at hrefs
  exact ⟨hheld, hrefs⟩

/-! ### The loads -/

/-- A load is replaced; the rest of the account follows from what the server sees of it. -/
theorem replace {td : List Nat} (h : Inv sh ts) (hinv : L.Inv)
    (hpub : L.loader = .published ↔ (sh.loads k).loader = .published)
    (hne : ∀ j, j ≠ k → (j ∈ td ↔ j ∈ sh.tornDown)) (hself : k < sh.count → (k ∈ td ↔ L.teardown ≠ .none))
    (hledger : RefLedger (sh.setLoad k L).Made (sh.setLoad k L).refs (held (sh.setLoad k L) ts') td)
    (hknows : ∀ t ∈ ts', t.Knows sh.published) : Inv { sh.setLoad k L with tornDown := td } ts' := by
  refine ⟨fun j hj => ?_, hledger, fun j hj => ?_, fun j => ?_, h.snapshot, hknows⟩
  · show ((sh.setLoad k L).loads j).Inv
    by_cases hjk : j = k
    · rw [hjk, loads_setLoad_self]
      exact hinv
    · rw [loads_setLoad_of_ne sh hjk]
      exact h.loads j hj
  · show j ∈ td ↔ ((sh.setLoad k L).loads j).teardown ≠ .none
    by_cases hjk : j = k
    · subst hjk
      rw [loads_setLoad_self]
      exact hself hj
    · rw [loads_setLoad_of_ne sh hjk, hne j hjk]
      exact h.tornDown j hj
  · show j ∈ sh.published ↔ j < sh.count ∧ ((sh.setLoad k L).loads j).loader = .published
    by_cases hjk : j = k
    · subst hjk
      rw [loads_setLoad_self, hpub]
      exact h.published j
    · rw [loads_setLoad_of_ne sh hjk]
      exact h.published j

/-- A load goes on without a change that the server sees. -/
theorem setLoad (h : Inv sh ts) (hinv : L.Inv) (hsame : (sh.loads k).Same L) : Inv (sh.setLoad k L) ts := by
  refine h.replace hinv hsame.published (fun _ _ => Iff.rfl) (fun hk => ?_) ?_ h.knows
  · rw [Ne, hsame.teardown]
    exact h.tornDown k hk
  · rw [made_setLoad hsame.made, refs_setLoad hsame.refs, held, owners_setLoad hsame.owns]
    exact h.ledger

/-! ### The threads -/

/-- A thread goes on without touching a reference. -/
theorem move (h : Inv sh (t :: ts)) (href : t'.reference? = t.reference?) (hknows : t'.Knows sh.published) :
    Inv sh (t' :: ts) where
  loads := h.loads
  ledger := by
    have hheld : held sh (t' :: ts) = held sh (t :: ts) := by
      unfold held
      rw [List.filterMap_cons, List.filterMap_cons, href]
    rw [hheld]
    exact h.ledger
  tornDown := h.tornDown
  published := h.published
  snapshot := h.snapshot
  knows x hx := by
    rcases List.mem_cons.mp hx with rfl | hx
    · exact hknows
    · exact h.knows x (List.mem_cons_of_mem _ hx)

theorem spawn (h : Inv sh ts) (href : t.reference? = none) (hknows : t.Knows sh.published) : Inv sh (t :: ts) where
  loads := h.loads
  ledger := by
    have hheld : held sh (t :: ts) = held sh ts := by
      unfold held
      rw [List.filterMap_cons_none href]
    rw [hheld]
    exact h.ledger
  tornDown := h.tornDown
  published := h.published
  snapshot := h.snapshot
  knows x hx := by
    rcases List.mem_cons.mp hx with rfl | hx
    · exact hknows
    · exact h.knows x hx

theorem held_cons (href : t.reference? = some k) :
    (held sh (t :: ts)).Perm (k :: held sh ts) := by
  unfold held
  rw [List.filterMap_cons_some href]
  exact (List.perm_middle.append_right _)

theorem held_cons_none (href : t.reference? = none) : held sh (t :: ts) = held sh ts := by
  unfold held
  rw [List.filterMap_cons_none href]

/-- A thread that has seen a positive count takes a reference. -/
theorem swapped {n : Int} (h : Inv sh (.compareAndSet k n :: ts)) (hn : sh.refs k = n) :
    Inv (sh.setRefs k (n + 1)) (.holder k :: ts) := by
  obtain ⟨hk, hpos⟩ : k ∈ sh.published ∧ 0 < n := by
    cases h.knows _ List.mem_cons_self with
    | compareAndSet hk hn => exact ⟨hk, hn⟩
  have hlt := ((h.published k).mp hk).1
  have hmade : sh.Made k := ⟨hlt, (h.loads k hlt).made_of_published ((h.published k).mp hk).2⟩
  refine h.replace ((h.loads k hlt).setRefs _) Iff.rfl (fun _ _ => Iff.rfl) (h.tornDown k) ?_ fun t ht => ?_
  · show RefLedger (sh.setRefs k (n + 1)).Made (sh.setRefs k (n + 1)).refs (held (sh.setRefs k (n + 1)) _) sh.tornDown
    have hledger := h.ledger
    rw [held_cons_none rfl] at hledger
    rw [made_setRefs, held_setRefs]
    refine (hledger.acquire (fun j hj => refs_setRefs_of_ne sh hj _) hmade (hn ▸ hpos) ?_).perm (held_cons rfl)
      (List.Perm.refl _)
    rw [refs_setRefs_self, hn]
  · rcases List.mem_cons.mp ht with rfl | ht
    · exact .holder hk
    · exact h.knows t (List.mem_cons_of_mem _ ht)

/-- A reference is dropped: the load is as it was, or its teardown begins. -/
theorem drop {locked : Bool} (h : Inv sh (.release k locked :: ts)) (hmore : sh.refs k ≠ 1) :
    Inv (sh.setRefs k (sh.refs k - 1)) (.returns locked :: ts) := by
  have hpub : k ∈ sh.published := (h.knows _ List.mem_cons_self).reference rfl
  have hlt := ((h.published k).mp hpub).1
  refine h.replace ((h.loads k hlt).setRefs _) Iff.rfl (fun _ _ => Iff.rfl) (h.tornDown k) ?_ fun t ht => ?_
  · show RefLedger (sh.setRefs k (sh.refs k - 1)).Made (sh.setRefs k (sh.refs k - 1)).refs
      (held (sh.setRefs k (sh.refs k - 1)) _) sh.tornDown
    rw [made_setRefs, held_setRefs, held_cons_none (Thread.reference?_returns locked)]
    exact (h.ledger.perm (held_cons rfl).symm (List.Perm.refl _)).release (fun j hj => refs_setRefs_of_ne sh hj _)
      (refs_setRefs_self sh k _) hmore
  · rcases List.mem_cons.mp ht with rfl | ht
    · exact Thread.Knows.returns ..
    · exact h.knows t (List.mem_cons_of_mem _ ht)

theorem dropLast {locked : Bool} (h : Inv sh (.release k locked :: ts)) (hlast : sh.refs k = 1) :
    Inv (sh.tearDown k) (.tearing k locked :: ts) := by
  have hpub : k ∈ sh.published := (h.knows _ List.mem_cons_self).reference rfl
  obtain ⟨hlt, hloader⟩ := (h.published k).mp hpub
  have hheld : k ∈ held sh (.release k locked :: ts) := (held_cons rfl).symm.subset List.mem_cons_self
  obtain ⟨_, hmade, hnone, hlive⟩ := h.live_of_held hheld
  have hopen := ((h.loads k hlt).of_made hmade hnone).2.2
  refine h.replace (.tearing (p := .enter) (Or.inr hloader) rfl hmade (Or.inl hlive) hopen) Iff.rfl
    (fun j hj => by simp [hj]) (fun _ => by simp) ?_ fun t ht => ?_
  · show RefLedger (sh.tearDown k).Made (sh.tearDown k).refs (held (sh.tearDown k) _) (k :: sh.tornDown)
    rw [made_tearDown, held_tearDown, held_cons_none rfl]
    exact (h.ledger.perm (held_cons rfl).symm (List.Perm.refl _)).releaseLast (fun j hj => refs_tearDown_of_ne sh hj)
      (refs_tearDown_self sh k) hlast
  · rcases List.mem_cons.mp ht with rfl | ht
    · exact .tearing
    · exact h.knows t (List.mem_cons_of_mem _ ht)

theorem filterMap_retire (old : Option Nat) (ts : List Thread) :
    (Thread.retire old :: ts).filterMap Thread.reference? = old.toList ++ ts.filterMap Thread.reference? := by
  cases old <;> rfl

theorem knows_retire {published : List Nat} {old : Option Nat} (h : ∀ k, old = some k → k ∈ published) :
    (Thread.retire old).Knows published := by
  cases old with
  | none => exact .unlock
  | some k => exact .release (h k rfl)

/-- The reference of the pointer passes to the thread that has emptied it. -/
theorem shutdown (h : Inv sh (.shutdown :: ts)) :
    Inv { sh with closed := true, snapshot := none, stopLock := true } (.retire sh.snapshot :: ts) where
  loads := h.loads
  ledger := by
    have hheld : held { sh with closed := true, snapshot := none, stopLock := true } (.retire sh.snapshot :: ts) =
        held sh (.shutdown :: ts) := by
      unfold held
      rw [filterMap_retire]
      rfl
    rw [hheld]
    exact h.ledger
  tornDown := h.tornDown
  published := h.published
  snapshot := rfl
  knows t ht := by
    rcases List.mem_cons.mp ht with rfl | ht
    · exact knows_retire fun k hk => h.published_of_snapshot hk
    · exact h.knows t (List.mem_cons_of_mem _ ht)

/-! ### The loads and the server -/

theorem loadConfig (h : Inv sh ts) (registered : List (String × Int)) : Inv (sh.loadConfig registered) ts := by
  have hload : (sh.loadConfig registered).loads sh.count = { manager := { register registered with monitor := true } } :=
    loads_setLoad_self ..
  have hne : ∀ j, j ≠ sh.count → (sh.loadConfig registered).loads j = sh.loads j := fun j hj =>
    loads_setLoad_of_ne sh hj _
  have hmade : ∀ j, (sh.loadConfig registered).Made j ↔ sh.Made j := by
    intro j
    show j < sh.count + 1 ∧ _ ↔ j < sh.count ∧ _
    by_cases hj : j = sh.count
    · subst hj
      simp [hload]
    · rw [hne j hj]
      constructor <;> rintro ⟨hlt, hm⟩ <;> exact ⟨by omega, hm⟩
  have howners : owners (sh.loadConfig registered) = owners sh := by
    show (List.range (sh.count + 1)).filter _ = _
    rw [List.range_succ, List.filter_append, List.filter_singleton, hload]
    refine (List.append_nil _).trans (List.filter_congr fun j hj => ?_)
    rw [hne j (Nat.ne_of_lt (List.mem_range.mp hj))]
  have hheld : held (sh.loadConfig registered) ts = held sh ts := by
    unfold held
    rw [howners]
    rfl
  refine ⟨fun j hj => ?_, ⟨fun j hj => ?_, fun j hj => ?_, fun j hj => ?_, fun j hj => ?_⟩, fun j hj => ?_,
    fun j => ?_, h.snapshot, h.knows⟩
  · by_cases hjk : j = sh.count
    · rw [hjk, hload]
      have hstart := ResourceManager.starting_register registered
      exact .starting rfl rfl rfl
        ⟨hstart.started, hstart.executor, hstart.refresher, hstart.closed, hstart.owned, hstart.rest⟩ rfl rfl
    · rw [hne j hjk]
      exact h.loads j (by have hj : j < sh.count + 1 := hj; omega)
  · have hj := (hmade j).mp hj
    rw [hheld, Shared.refs, hne j (Nat.ne_of_lt hj.1)]
    exact h.ledger.refs j hj
  · rw [hheld] at hj
    exact (hmade j).mpr (h.ledger.held_made j hj)
  · exact (hmade j).mpr (h.ledger.ended_made j hj)
  · rw [hheld]
    exact h.ledger.ended j ((hmade j).mp hj)
  · by_cases hjk : j = sh.count
    · rw [hjk, hload]
      constructor
      · intro ht
        exact absurd (h.ledger.ended_made _ ht).1 (Nat.lt_irrefl _)
      · intro ht
        exact absurd rfl ht
    · rw [hne j hjk]
      exact h.tornDown j (by have hj : j < sh.count + 1 := hj; omega)
  · by_cases hjk : j = sh.count
    · rw [hjk, hload]
      constructor
      · intro hp
        exact absurd ((h.published _).mp hp).1 (Nat.lt_irrefl _)
      · rintro ⟨_, hp⟩
        cases hp
    · rw [hne j hjk]
      refine (h.published j).trans (and_congr_left fun _ => ?_)
      show j < sh.count ↔ j < sh.count + 1
      omega

theorem made (h : Inv sh ts) (hlt : k < sh.count) (hbuild : (sh.loads k).loader = .build) :
    Inv (sh.setLoad k { sh.loads k with made := true, refs := 1, loader := .publish }) ts := by
  obtain ⟨hnone, hunmade, hlive, hopen⟩ := (h.loads k hlt).of_build hbuild
  refine h.replace (.live (Or.inl rfl) hnone rfl hlive hopen) (by simp [hbuild]) (fun _ _ => Iff.rfl)
    (fun _ => h.tornDown k hlt) ?_ h.knows
  generalize hL : ({ sh.loads k with made := true, refs := 1, loader := .publish } : Load) = L
  have hfresh : ¬ sh.Made k := fun hm => by simp [hm.2] at hunmade
  refine (h.ledger.create (fun j hj => refs_setLoad_of_ne sh hj L) hfresh (fun j => ?_) ?_).perm ?_ (List.Perm.refl _)
  · by_cases hj : j = k
    · subst hj
      simp [Shared.Made, Shared.setLoad, ← hL, hlt]
    · simp [Shared.Made, Shared.setLoad, hj]
  · rw [Shared.refs, loads_setLoad_self, ← hL]
  · have howners : (owners (sh.setLoad k L)).Perm (k :: owners sh) :=
      owners_perm rfl hlt (fun j hj => by rw [loads_setLoad_of_ne sh hj]) (by rw [loads_setLoad_self, ← hL]; rfl)
        (by rw [hbuild]; rfl)
    exact (howners.append_left _).trans List.perm_middle

/-- The snapshot passes from its load to the pointer, and the old one to the thread that is to release it. -/
theorem publish (h : Inv sh ts) (hlt : k < sh.count) (hpublish : (sh.loads k).loader = .publish)
    (hclosed : sh.closed = false) :
    Inv { sh.setLoad k { sh.loads k with loader := .published } with
      snapshot := some k, published := k :: sh.published, stopLock := true } (.retire sh.snapshot :: ts) := by
  have howns : (sh.loads k).loader.owns = true := by rw [hpublish]; rfl
  obtain ⟨_, hmade, hnone, hlive⟩ := h.live_of_held (h.refs_of_owner hlt howns).1
  have hopen := ((h.loads k hlt).of_made hmade hnone).2.2
  generalize hL : ({ sh.loads k with loader := .published } : Load) = L
  have hrefs : (sh.setLoad k L).refs = sh.refs := refs_setLoad (by rw [← hL])
  have hmade' : (sh.setLoad k L).Made = sh.Made := made_setLoad (by rw [← hL])
  have howners : (owners sh).Perm (k :: owners (sh.setLoad k L)) :=
    owners_perm rfl hlt (fun j hj => by rw [loads_setLoad_of_ne sh hj]) howns
      (by rw [loads_setLoad_self, ← hL]; rfl)
  refine ⟨fun j hj => ?_, ?_, fun j hj => ?_, fun j => ?_, by simp [Shared.setLoad, hclosed], fun t ht => ?_⟩
  · show ((sh.setLoad k L).loads j).Inv
    by_cases hjk : j = k
    · rw [hjk, loads_setLoad_self, ← hL]
      exact .live (Or.inr rfl) hnone hmade hlive hopen
    · rw [loads_setLoad_of_ne sh hjk]
      exact h.loads j hj
  · show RefLedger (sh.setLoad k L).Made (sh.setLoad k L).refs
      ([k] ++ (Thread.retire sh.snapshot :: ts).filterMap Thread.reference? ++ owners (sh.setLoad k L)) sh.tornDown
    rw [hrefs, hmade', filterMap_retire]
    refine h.ledger.perm ?_ (List.Perm.refl _)
    exact List.perm_middle.symm.trans (howners.symm.append_left _)
  · show j ∈ sh.tornDown ↔ ((sh.setLoad k L).loads j).teardown ≠ .none
    by_cases hjk : j = k
    · rw [hjk, loads_setLoad_self, ← hL]
      exact h.tornDown k hlt
    · rw [loads_setLoad_of_ne sh hjk]
      exact h.tornDown j hj
  · show j ∈ k :: sh.published ↔ j < sh.count ∧ ((sh.setLoad k L).loads j).loader = .published
    by_cases hjk : j = k
    · subst hjk
      rw [loads_setLoad_self, ← hL]
      simp [hlt]
    · rw [loads_setLoad_of_ne sh hjk, List.mem_cons, or_iff_right hjk]
      exact h.published j
  · rcases List.mem_cons.mp ht with rfl | ht
    · exact knows_retire fun j hj => List.mem_cons_of_mem _ (h.published_of_snapshot hj)
    · exact (h.knows t ht).mono (List.subset_cons_self _ _)

theorem withdraw (h : Inv sh ts) (hlt : k < sh.count) (hpublish : (sh.loads k).loader = .publish) :
    Inv (sh.setLoad k { sh.loads k with loader := .withdraw }) ts := by
  have howns : (sh.loads k).loader.owns = true := by rw [hpublish]; rfl
  obtain ⟨_, hmade, hnone, hlive⟩ := h.live_of_held (h.refs_of_owner hlt howns).1
  have hopen := ((h.loads k hlt).of_made hmade hnone).2.2
  exact h.setLoad (.live (Or.inl rfl) hnone hmade hlive hopen)
    ⟨rfl, rfl, by rw [hpublish]; rfl, by rw [hpublish]; simp, Iff.rfl⟩

/-- The release of a snapshot that was never published is that of the last reference. -/
theorem withdrawDropLast (h : Inv sh ts) (hlt : k < sh.count) (hwithdraw : (sh.loads k).loader = .withdraw) :
    Inv ((sh.setLoad k { sh.loads k with loader := .withdrawing }).tearDown k) ts := by
  have howns : (sh.loads k).loader.owns = true := by rw [hwithdraw]; rfl
  obtain ⟨hheld, hone⟩ := h.refs_of_owner hlt howns
  obtain ⟨_, hmade, hnone, hlive⟩ := h.live_of_held hheld
  have hopen := ((h.loads k hlt).of_made hmade hnone).2.2
  generalize hL : ({ sh.loads k with loader := .withdrawing, refs := sh.refs k - 1, teardown := .stop .enter } : Load) = L
  have hsame : (sh.setLoad k { sh.loads k with loader := .withdrawing }).tearDown k =
      { sh.setLoad k L with tornDown := k :: sh.tornDown } := by
    simp [Shared.tearDown, Shared.setLoad, Shared.refs, ← hL]
  rw [hsame]
  refine h.replace (by rw [← hL]; exact .tearing (p := .enter) (Or.inl rfl) rfl hmade (Or.inl hlive) hopen)
    (by rw [← hL, hwithdraw]; simp) (fun j hj => by simp [hj]) (fun _ => by simp [← hL]) ?_ h.knows
  have howners : (owners sh).Perm (k :: owners (sh.setLoad k L)) :=
    owners_perm rfl hlt (fun j hj => by rw [loads_setLoad_of_ne sh hj]) howns
      (by rw [loads_setLoad_self, ← hL]; rfl)
  rw [made_setLoad (by rw [← hL] : L.made = (sh.loads k).made)]
  have hledger : RefLedger sh.Made sh.refs (k :: held (sh.setLoad k L) ts) sh.tornDown :=
    h.ledger.perm (List.perm_middle.symm.trans (howners.symm.append_left _)) (List.Perm.refl _)
  exact hledger.releaseLast (fun j hj => refs_setLoad_of_ne sh hj L)
    (by rw [Shared.refs, loads_setLoad_self, ← hL]) hone

theorem withdrawn (h : Inv sh ts) (hlt : k < sh.count) (hloader : (sh.loads k).loader = .withdrawing)
    (hdone : (sh.loads k).teardown = .done) : Inv (sh.setLoad k { sh.loads k with loader := .giveUp }) ts := by
  obtain ⟨hmade, hsettled, hclosed⟩ := (h.loads k hlt).of_done hdone
  exact h.setLoad (.tornDown (Or.inr (Or.inr rfl)) hdone hmade hsettled hclosed)
    ⟨rfl, rfl, by rw [hloader]; rfl, by rw [hloader]; simp, Iff.rfl⟩

theorem giveUp (h : Inv sh ts) (hlt : k < sh.count) (hloader : (sh.loads k).loader = .giveUp) :
    Inv (sh.setLoad k { sh.loads k with loader := .stop .enter }) ts := by
  have hdone := (h.loads k hlt).of_giveUp hloader
  obtain ⟨hmade, hsettled, hclosed⟩ := (h.loads k hlt).of_done hdone
  exact h.setLoad (.abandoned (p := .enter) rfl (Or.inl rfl) hdone hmade hsettled hclosed)
    ⟨rfl, rfl, by rw [hloader]; rfl, by rw [hloader]; simp, Iff.rfl⟩

/-! ### One step -/

theorem thread_step (h : Inv sh (t :: ts)) (hstep : t.Step sh sh' t') : Inv sh' (t' :: ts) := by
  have hknows := h.knows t List.mem_cons_self
  cases hstep with
  | loadNull _ => exact h.move rfl .gone
  | load hk => exact h.move rfl (.loadRefs (h.published_of_snapshot hk))
  | retired _ => exact h.move rfl .load
  | loadRefs hpos =>
    cases hknows with
    | loadRefs hk => exact h.move rfl (.compareAndSet hk hpos)
  | swapped hn => exact h.swapped hn
  | lost _ =>
    cases hknows with
    | compareAndSet hk _ => exact h.move rfl (.loadRefs hk)
  | finish =>
    cases hknows with
    | holder hk => exact h.move rfl (.release hk)
  | drop hmore => exact h.drop hmore
  | dropLast hlast => exact h.dropLast hlast
  | tornDown _ => exact h.move (Thread.reference?_returns _) (Thread.Knows.returns ..)
  | unlock =>
    have hgone : Inv sh (.gone :: ts) := h.move rfl .gone
    exact hgone.lock false
  | shutdown _ => exact h.shutdown

theorem step {s s' : State} {e : Option (Nat × Event)} (h : Inv s.shared s.threads) (hmeets : Meets s e)
    (hstep : Step s e s') : Inv s'.shared s'.threads := by
  cases hstep with
  | thread hstep => exact ((h.perm List.perm_middle.symm).thread_step hstep).perm List.perm_middle
  | acquire => exact h.spawn rfl .load
  | shutdown => exact h.spawn rfl .shutdown
  | loadConfig _ => exact h.loadConfig _
  | load hlt hstep => exact h.setLoad ((h.loads _ hlt).step hmeets hstep) hstep.same
  | made hlt hbuild => exact h.made hlt hbuild
  | publish hlt hpublish _ hclosed => exact h.publish hlt hpublish hclosed
  | withdraw hlt hpublish _ _ => exact (h.withdraw hlt hpublish).lock true
  | withdrawDrop hlt hwithdraw hmore =>
    exact absurd (h.refs_of_owner hlt (by rw [hwithdraw]; rfl)).2 hmore
  | withdrawDropLast hlt hwithdraw _ => exact h.withdrawDropLast hlt hwithdraw
  | withdrawn hlt hloader hdone => exact h.withdrawn hlt hloader hdone
  | giveUp hlt hloader => exact (h.giveUp hlt hloader).lock false

end Inv

theorem Reached.inv {s : State} (h : Reached Meets s) : Inv s.shared s.threads := by
  induction h with
  | init => exact Inv.init
  | step _ hmeets hstep ih => exact ih.step hmeets hstep

/-! ## Lifetimes -/

/-- A request that has acquired the snapshot and not released it. -/
def State.Holds (s : State) (k : Nat) : Prop := Thread.holder k ∈ s.threads

/-- Every value fetched is closed once, after nobody has it any more and not while a request may use it; so is every
operator; and a load that fails leaves nothing behind. -/
structure Lifetimes (s : State) : Prop where
  once : ∀ k < s.shared.count,
    (s.shared.loads k).manager.closed.Nodup ∧ (s.shared.loads k).closedOperators.Nodup
  /-- a value that is neither a resource's nor a refresh's any more is closed -/
  superseded : ∀ k < s.shared.count, ∀ id < (s.shared.loads k).manager.fetched,
    id ∉ (s.shared.loads k).manager.current → (s.shared.loads k).manager.refresher.pending? ≠ some id →
      id ∈ (s.shared.loads k).manager.closed
  retired : ∀ k < s.shared.count, (s.shared.loads k).Stopped →
    ∀ id < (s.shared.loads k).manager.fetched, id ∈ (s.shared.loads k).manager.closed
  held : ∀ k, s.Holds k → (s.shared.loads k).manager.closed = [] ∧ (s.shared.loads k).closedOperators = []
  get : ∀ k name id, s.Holds k → (s.shared.loads k).manager.get name = (some (.closeable id), true) →
    id ∉ (s.shared.loads k).manager.closed
  /-- a snapshot is torn down once, when the last reference to it goes -/
  tornDown : ∀ k, s.shared.Made k →
    s.shared.tornDown.count k = if (JavaServer.held s.shared s.threads).count k = 0 then 1 else 0
  snapshot : s.shared.snapshot = if s.shared.closed then none else s.shared.published.head?
  failed : ∀ k < s.shared.count, (s.shared.loads k).loader = .failed →
    k ∉ s.shared.published ∧ (∀ id < (s.shared.loads k).manager.fetched, id ∈ (s.shared.loads k).manager.closed) ∧
      ∀ j < (s.shared.loads k).closers, j ∈ (s.shared.loads k).closedOperators

/-- The step publishes no value of a manager that is stopped. -/
def Silent (s s' : State) : Prop :=
  ∀ k < s.shared.count, (s.shared.loads k).Stopped →
    (s'.shared.loads k).manager.resources = (s.shared.loads k).manager.resources

theorem Inv.lifetimes {s : State} (h : Inv s.shared s.threads) : Lifetimes s := by
  have hheld : ∀ k, s.Holds k → (s.shared.loads k).manager.closed = [] ∧ (s.shared.loads k).closedOperators = [] := by
    intro k hk
    have href : k ∈ JavaServer.held s.shared s.threads :=
      List.mem_append_left _ (List.mem_append_right _ (List.mem_filterMap.mpr ⟨_, hk, rfl⟩))
    obtain ⟨hlt, hmade, hnone, hlive⟩ := h.live_of_held href
    exact ⟨hlive.closed, ((h.loads k hlt).of_made hmade hnone).2.2⟩
  refine ⟨fun k hk => ?_, fun k hk => (h.loads k hk).accounted.1.2, fun k hk hstopped id hid => ?_, hheld,
    fun k name id hk _ => ?_, h.ledger.ended, h.snapshot, fun k hk hfailed => ⟨fun hp => ?_, fun id hid => ?_,
      fun j hj => ?_⟩⟩
  · have hacc := (h.loads k hk).accounted
    exact ⟨hacc.1.1, hacc.2⟩
  · exact ResourceManager.mem_of_owned ((h.loads k hk).settled hstopped).closed hid
  · rw [(hheld k hk).1]
    exact List.not_mem_nil
  · rw [((h.published k).mp hp).2] at hfailed
    cases hfailed
  · exact ResourceManager.mem_of_owned ((h.loads k hk).of_failed hfailed).1.closed hid
  · exact ResourceManager.mem_of_owned ((h.loads k hk).of_failed hfailed).2 hj

theorem manager_setLoad (hmanager : L.manager = (sh.loads k).manager) (j : Nat) :
    ((sh.setLoad k L).loads j).manager = (sh.loads j).manager := by
  by_cases hj : j = k
  · rw [hj, loads_setLoad_self, hmanager]
  · rw [loads_setLoad_of_ne sh hj]

theorem Thread.Step.managers (h : t.Step sh sh' t') (j : Nat) : (sh'.loads j).manager = (sh.loads j).manager := by
  cases h with
  | swapped _ => exact manager_setLoad (by rfl) j
  | drop _ => exact manager_setLoad (by rfl) j
  | dropLast _ => exact manager_setLoad (by rfl) j
  | _ => rfl

/-- The server's own steps leave the managers alone. -/
theorem Step.managers {s s' : State} {j : Nat} (h : Step s none s') (hj : j < s.shared.count) :
    (s'.shared.loads j).manager = (s.shared.loads j).manager := by
  cases h with
  | thread hstep => exact hstep.managers j
  | acquire => rfl
  | shutdown => rfl
  | @loadConfig sh ts registered _ => exact congrArg Load.manager (loads_setLoad_of_ne sh (Nat.ne_of_lt hj) _)
  | made => exact manager_setLoad (by rfl) j
  | publish => exact manager_setLoad (by rfl) j
  | withdraw => exact manager_setLoad (by rfl) j
  | withdrawDrop => exact manager_setLoad (by rfl) j
  | withdrawDropLast => exact (manager_setLoad (by rfl) j).trans (manager_setLoad (by rfl) j)
  | withdrawn => exact manager_setLoad (by rfl) j
  | giveUp => exact manager_setLoad (by rfl) j

theorem Inv.silent {s s' : State} {e : Option (Nat × Event)} (h : Inv s.shared s.threads) (hmeets : Meets s e)
    (hstep : Step s e s') : Silent s s' := by
  intro j hj hstopped
  cases e with
  | none => rw [hstep.managers hj]
  | some p =>
    cases hstep with
    | @load sh ts k e L hlt hstep =>
      by_cases hjk : j = k
      · subst hjk
        show ((sh.setLoad j L).loads j).manager.resources = _
        rw [loads_setLoad_self]
        exact (h.loads j hlt).resources_step hstopped hmeets hstep
      · exact congrArg (·.manager.resources) (loads_setLoad_of_ne sh hjk _)

/-- In a run whose steps all meet the condition, resources and snapshots live as long as they are used. -/
theorem reached_lifetimes {s : State} (h : Reached Meets s) :
    Lifetimes s ∧ ∀ e s', Meets s e → Step s e s' → Silent s s' :=
  ⟨h.inv.lifetimes, fun _ _ hmeets hstep => h.inv.silent hmeets hstep⟩

/-! ### A server with one load -/

theorem Step.first (h : t.Step sh sh' t') : Step ⟨sh, t :: ts⟩ none ⟨sh', t' :: ts⟩ := @Step.thread sh [] t ts sh' t' h

/-- A run has brought the first load to `L`, and the pointer, the lock and the threads to what they are. -/
def Single (C : State → Option (Nat × Event) → Prop) (L : Load) (snapshot : Option Nat) (lock : Bool)
    (ts : List Thread) : Prop :=
  ∃ sh, Reached C ⟨sh, ts⟩ ∧ sh.count = 1 ∧ sh.loads 0 = L ∧ sh.snapshot = snapshot ∧ sh.stopLock = lock ∧
    sh.closed = false

namespace Single
variable {C : State → Option (Nat × Event) → Prop} {snapshot : Option Nat} {lock : Bool}

theorem begin (hC : ∀ s, C s none) {registered : List (String × Int)} (hnodup : (registered.map Prod.fst).Nodup) :
    Single C { manager := { register registered with monitor := true } } none false [] :=
  ⟨_, .step .init (hC _) (.loadConfig hnodup), rfl, by simp [Shared.loadConfig, Shared.setLoad], rfl, rfl, rfl⟩

theorem load {e : Event} {L' : Load} (h : Single C L snapshot lock ts)
    (hC : ∀ s : State, s.shared.loads 0 = L → C s (some (0, e))) (hstep : L.Step e L') :
    Single C L' snapshot lock ts := by
  obtain ⟨sh, hreach, hcount, hload, hsnapshot, hlock, hclosed⟩ := h
  have hlt : 0 < sh.count := by rw [hcount]; exact Nat.zero_lt_one
  exact ⟨_, .step hreach (hC _ hload) (.load hlt (hload ▸ hstep)), hcount, loads_setLoad_self .., hsnapshot, hlock,
    hclosed⟩

theorem made (h : Single C L snapshot lock ts) (hC : ∀ s, C s none) (hbuild : L.loader = .build) :
    Single C { L with made := true, refs := 1, loader := .publish } snapshot lock ts := by
  obtain ⟨sh, hreach, hcount, rfl, hsnapshot, hlock, hclosed⟩ := h
  have hlt : 0 < sh.count := by rw [hcount]; exact Nat.zero_lt_one
  exact ⟨_, .step hreach (hC _) (.made hlt hbuild), hcount, loads_setLoad_self .., hsnapshot, hlock, hclosed⟩

theorem publish (h : Single C L none false ts) (hC : ∀ s, C s none) (hpublish : L.loader = .publish) :
    Single C { L with loader := .published } (some 0) true (.unlock :: ts) := by
  obtain ⟨sh, hreach, hcount, rfl, hsnapshot, hlock, hclosed⟩ := h
  have hlt : 0 < sh.count := by rw [hcount]; exact Nat.zero_lt_one
  have hnext := @Step.publish sh ts 0 hlt hpublish hlock hclosed
  rw [hsnapshot] at hnext
  exact ⟨_, .step hreach (hC _) hnext, hcount, by simp [Shared.setLoad], rfl, rfl, hclosed⟩

theorem unlock (h : Single C L snapshot lock (.unlock :: ts)) (hC : ∀ s, C s none) :
    Single C L snapshot false (.gone :: ts) := by
  obtain ⟨sh, hreach, hcount, hload, hsnapshot, hlock, hclosed⟩ := h
  exact ⟨_, .step hreach (hC _) (.first .unlock), hcount, hload, hsnapshot, rfl, hclosed⟩

/-- A request comes in and acquires the snapshot. -/
theorem acquire (h : Single C L (some 0) lock ts) (hC : ∀ s, C s none) (hpos : 0 < L.refs) :
    Single C { L with refs := L.refs + 1 } (some 0) lock (.holder 0 :: ts) := by
  obtain ⟨sh, hreach, hcount, rfl, hsnapshot, hlock, hclosed⟩ := h
  have hload : Reached C ⟨sh, .load :: ts⟩ := .step hreach (hC _) .acquire
  have hloadRefs : Reached C ⟨sh, .loadRefs 0 :: ts⟩ :=
    .step hload (hC _) (.first (.load hsnapshot))
  have hcompare : Reached C ⟨sh, .compareAndSet 0 (sh.refs 0) :: ts⟩ :=
    .step hloadRefs (hC _) (.first (.loadRefs hpos))
  exact ⟨_, .step hcompare (hC _) (.first (.swapped rfl)), hcount, loads_setLoad_self .., hsnapshot, hlock,
    hclosed⟩

end Single

/-- A request has the snapshot of a server with one connection pool. -/
theorem reached_lifetimes_pool : ∃ s, Reached Meets s ∧ s.Holds 0 ∧ (s.shared.loads 0).manager.current = [0] ∧
    (Lifetimes s ∧ ∀ e s', Meets s e → Step s e s' → Silent s s') := by
  have hnone : ∀ s, Meets s none := fun _ => trivial
  have hbegin : Single Meets { manager := { register [("redis", -1)] with monitor := true } } none false [] :=
    .begin hnone (by simp)
  have hfetched := hbegin.load (e := .other) (fun _ _ => trivial) (.start rfl (.fetch rfl .closeable))
  have hstarted := hfetched.load (e := .other) (fun _ _ => trivial) (.start rfl (.started (Nat.le_refl 1)))
  have hheld := ((((hstarted.made hnone rfl).publish hnone rfl).unlock hnone).acquire hnone Int.one_pos)
  obtain ⟨sh, hreach, -, hload, -⟩ := hheld
  exact ⟨_, hreach, List.mem_cons_self, by rw [hload]; rfl, reached_lifetimes hreach⟩

/-- The second of two fetchers fails, and the pool that the first has opened stays open. -/
theorem not_reached_lifetimes : ¬ ∀ s, Reached (fun _ _ => True) s →
    Lifetimes s ∧ ∀ e s', Step s e s' → Silent s s' := by
  intro h
  have hbegin : Single (fun _ _ => True) { manager := { register [("a", -1), ("b", -1)] with monitor := true } } none
      false [] := .begin (fun _ => trivial) (by simp)
  have hfetched := hbegin.load (fun _ _ => trivial) (.start rfl (.fetch rfl .closeable))
  have hfailed := hfetched.load (fun _ _ => trivial) (.start rfl (.fails (Nat.lt_succ_self 1)))
  have hstopped := hfailed.load (fun _ _ => trivial) (.catchStop rfl (.idle rfl rfl))
  obtain ⟨sh, hreach, hcount, hload, -⟩ := hstopped
  have hclosed := ((h _ hreach).1.failed 0 (by rw [hcount]; exact Nat.zero_lt_one) (by rw [hload]; rfl)).2.1
  rw [hload] at hclosed
  exact List.not_mem_nil (hclosed 0 Nat.zero_lt_one)

end Pineapple.JavaServer
