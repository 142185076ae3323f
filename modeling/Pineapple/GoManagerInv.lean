import Pineapple.GoManager
import Pineapple.Lib.RefCount

/-! # The invariant of the Go resource manager

The counters are right (`RefLedger`), and the values that the manager's own reference counts are those of the
resources that one goroutine at most, the one in `Start` or in the first `Stop`, accounts for; while there is
none they are all of them, or none when the manager is not started or is retired. -/

namespace Pineapple.GoResource

namespace Thread

/-- The value the goroutine has a reference to. -/
def reference? : Thread → Option Value
  | store v _ _ | handle v | drop v _ | swap _ v => some v
  | _ => none

/-- The value whose last reference the goroutine dropped and which it has not closed yet. -/
def closing? : Thread → Option Value
  | close v _ => some v
  | _ => none

def locks : Thread → Bool
  | fetch _ _ | store _ _ _ | setLoaded _ _ _ | rollback _ | clear _ _ | launch _ => true
  | drop _ (.rollback _ _) | close _ (.rollback _ _) => true
  | _ => false

/-- The resources whose values the goroutine has to account for, in `Start` or in the first `Stop`. -/
def keeps (m : Manager) : Thread → Option (List String)
  | fetch _ loaded | store _ _ loaded => some loaded
  | setLoaded name _ loaded => some (loaded ++ [name])
  | rollback rest | clear _ rest | drop _ (.rollback _ rest) | close _ (.rollback _ rest) => some rest
  | launch _ | cancel false | wait false => some m.names
  | retire rest | drop _ (.stop rest) | close _ (.stop rest) => some rest
  | _ => none

/-- A refresh loop, counted in `wg`. -/
def refreshes : Thread → Bool
  | tick _ | refetch _ | swap _ _ | drop _ (.refresh _) | close _ (.refresh _) => true
  | _ => false

/-- `Start` is giving up this resource. -/
def givesUp (name : String) : Thread → Prop
  | clear name' _ | drop _ (.rollback name' _) | close _ (.rollback name' _) => name' = name
  | _ => False

/-- What a goroutine knows of the registered resources and of the shared state. -/
def Knows (m : Manager) (sh : Shared) : Thread → Prop
  | fetch todo loaded => (loaded ++ todo).Perm m.names ∧ sh.started = false
  | store v todo loaded => (loaded ++ v.1 :: todo).Perm m.names ∧ sh.started = false
  | setLoaded name todo loaded => (loaded ++ name :: todo).Perm m.names ∧ sh.started = false
  | rollback _ | clear _ _ | drop _ (.rollback _ _) | close _ (.rollback _ _) => sh.started = false
  | launch todo => sh.started = true ∧ sh.retired = false ∧ ∀ name ∈ todo, name ∈ m.names
  | cancel _ | wait _ => sh.started = true ∧ sh.retired = true
  | retire _ | drop _ (.stop _) | close _ (.stop _) => sh.started = true ∧ sh.retired = true ∧ sh.wg = 0
  | tick name | refetch name | drop _ (.refresh name) | close _ (.refresh name) =>
    name ∈ m.names ∧ sh.started = true
  | swap name v => v.1 = name ∧ name ∈ m.names ∧ sh.started = true
  | getRefs name v => v.1 = name ∧ v.2 < sh.fetched name
  | getSwap name v n => v.1 = name ∧ v.2 < sh.fetched name ∧ 0 < n
  | _ => True

end Thread

/-- The resources whose current value the manager has a reference to. -/
def Shared.live (sh : Shared) : List String := sh.owned.map Prod.fst

/-- Those that no goroutine accounts for. -/
def Shared.settled (m : Manager) (sh : Shared) : List String :=
  if sh.started && !sh.retired then m.names else []

def Value.Fetched (sh : Shared) (v : Value) : Prop := v.2 < sh.fetched v.1

structure ManagerInv (m : Manager) (sh : Shared) (ts : List Thread) : Prop where
  ledger : RefLedger (Value.Fetched sh) sh.refs (sh.owned ++ ts.filterMap Thread.reference?)
    (ts.filterMap Thread.closing? ++ sh.closed)
  live_nodup : sh.live.Nodup
  owned_slot : ∀ v ∈ sh.owned, sh.slot v.1 = some v.2
  slot_fetched : ∀ name n, sh.slot name = some n → n < sh.fetched name
  locked : ts.countP Thread.locks = if sh.locked then 1 else 0
  keepers : (ts.filterMap (Thread.keeps m)).length ≤ 1
  kept : sh.live.Perm ((ts.filterMap (Thread.keeps m)).head?.getD (sh.settled m))
  wg : sh.wg = ts.countP Thread.refreshes
  retired : sh.retired = true → sh.started = true
  refreshing : 0 < sh.wg → ∀ name ∈ m.names, name ∈ sh.live
  knows : ∀ t ∈ ts, t.Knows m sh
  /-- a loaded resource whose value is not the manager's any more is being given up -/
  givenUp : ∀ name n, sh.slot name = some n → name ∉ sh.live → sh.retired = false → sh.loaded name = true →
    ∃ t ∈ ts, t.givesUp name

/-! ## What a step leaves alone -/

theorem filterMap_cons_toList {α β : Type} (f : α → Option β) (a : α) (l : List α) :
    (a :: l).filterMap f = (f a).toList ++ l.filterMap f := by
  rw [List.filterMap_cons]
  cases f a <;> rfl

/-- What a goroutine knows survives the steps of the others. -/
theorem Thread.Knows.mono {m : Manager} {sh sh' : Shared} {t : Thread} (h : t.Knows m sh)
    (hfetched : ∀ name, sh.fetched name ≤ sh'.fetched name)
    (hstarted : sh.started = true → sh'.started = true) (hretired : sh.retired = true → sh'.retired = true)
    (hlocks : t.locks = true → sh'.started = sh.started ∧ sh'.retired = sh.retired)
    (hkeeps : t.keeps m ≠ none → sh.wg = 0 → sh'.wg = 0) : t.Knows m sh' := by
  cases t with
  | fetch | store | setLoaded =>
    obtain ⟨hp, hs⟩ := h
    exact ⟨hp, (hlocks rfl).1.trans hs⟩
  | rollback | clear => exact (hlocks rfl).1.trans h
  | launch =>
    obtain ⟨hs, hr, hm⟩ := h
    exact ⟨hstarted hs, (hlocks rfl).2.trans hr, hm⟩
  | cancel | wait => exact ⟨hstarted h.1, hretired h.2⟩
  | retire => exact ⟨hstarted h.1, hretired h.2.1, hkeeps nofun h.2.2⟩
  | tick | refetch => exact ⟨h.1, hstarted h.2⟩
  | swap => exact ⟨h.1, h.2.1, hstarted h.2.2⟩
  | getRefs => exact ⟨h.1, Nat.lt_of_lt_of_le h.2 (hfetched _)⟩
  | getSwap => exact ⟨h.1, Nat.lt_of_lt_of_le h.2.1 (hfetched _), h.2.2⟩
  | drop v after | close v after =>
    cases after with
    | handle => trivial
    | rollback => exact (hlocks rfl).1.trans h
    | stop => exact ⟨hstarted h.1, hretired h.2.1, hkeeps nofun h.2.2⟩
    | refresh => exact ⟨h.1, hstarted h.2⟩
  | start | stop | get | getLoad | getRetired | handle | gone => trivial

namespace ManagerInv
variable {m : Manager} {sh sh' : Shared} {t t' : Thread} {ts ts' : List Thread}

theorem perm (h : ManagerInv m sh ts) (hp : ts'.Perm ts) : ManagerInv m sh ts' := by
  have hkeeps : ts'.filterMap (Thread.keeps m) = ts.filterMap (Thread.keeps m) := by
    have hpk := hp.filterMap (Thread.keeps m)
    have hlen := h.keepers
    match hks : ts.filterMap (Thread.keeps m), hlen with
    | [], _ => rw [hks] at hpk; exact List.perm_nil.mp hpk
    | [l], _ => rw [hks] at hpk; exact List.perm_singleton.mp hpk
  refine ⟨h.ledger.perm ((hp.filterMap _).append_left _) ((hp.filterMap _).append_right _), h.live_nodup, h.owned_slot,
    h.slot_fetched, ?_, ?_, ?_, ?_, h.retired, h.refreshing, fun t ht => h.knows t (hp.mem_iff.mp ht), fun name n hn hl hr hf => ?_⟩
  · rw [hp.countP_eq]; exact h.locked
  · rw [hkeeps]; exact h.keepers
  · rw [hkeeps]; exact h.kept
  · rw [hp.countP_eq]; exact h.wg
  · obtain ⟨t, ht, hgives⟩ := h.givenUp name n hn hl hr hf
    exact ⟨t, hp.mem_iff.mpr ht, hgives⟩

/-- A goroutine in `Start` has the mutex, and no other has it. -/
theorem locks_alone (h : ManagerInv m sh (t :: ts)) (ht : t.locks = true) :
    sh.locked = true ∧ ts.countP Thread.locks = 0 := by
  have hlocked := h.locked
  rw [List.countP_cons, if_pos ht] at hlocked
  cases hl : sh.locked with
  | true =>
    rw [hl, if_pos rfl] at hlocked
    exact ⟨rfl, by omega⟩
  | false =>
    rw [hl, if_neg Bool.false_ne_true] at hlocked
    omega

theorem not_locks (h : ManagerInv m sh ts) (hl : sh.locked = false) {t : Thread} (ht : t ∈ ts) : t.locks = false := by
  have hlocked := h.locked
  rw [hl, if_neg Bool.false_ne_true, List.countP_eq_zero] at hlocked
  exact Bool.eq_false_iff.mpr (hlocked t ht)

/-- Who accounts for the values is alone at that, and right. -/
theorem keeps_alone (h : ManagerInv m sh (t :: ts)) {l : List String} (ht : t.keeps m = some l) :
    ts.filterMap (Thread.keeps m) = [] ∧ sh.live.Perm l := by
  have hkeepers := h.keepers
  have hkept := h.kept
  rw [List.filterMap_cons_some ht] at hkeepers hkept
  exact ⟨List.length_eq_zero_iff.mp (by simpa using hkeepers), hkept⟩

theorem mem_live_iff (h : ManagerInv m sh ts) {name : String} {n : Nat} (hn : sh.slot name = some n) :
    name ∈ sh.live ↔ (name, n) ∈ sh.owned := by
  constructor
  · intro hm
    obtain ⟨v, hv, rfl⟩ := List.mem_map.mp hm
    have := h.owned_slot v hv
    rw [hn] at this
    rw [Option.some.inj this]
    exact hv
  · exact fun hv => List.mem_map.mpr ⟨_, hv, rfl⟩

theorem slot_of_live (h : ManagerInv m sh ts) {name : String} (hm : name ∈ sh.live) : ∃ n, sh.slot name = some n := by
  obtain ⟨v, hv, rfl⟩ := List.mem_map.mp hm
  exact ⟨v.2, h.owned_slot v hv⟩

theorem givenUp_cons (h : ManagerInv m sh (t :: ts)) {name : String} {n : Nat} (hn : sh.slot name = some n)
    (hlive : name ∉ sh.live) (hretired : sh.retired = false) (hloaded : sh.loaded name = true)
    (ht : t.givesUp name → t'.givesUp name) : ∃ t ∈ t' :: ts, t.givesUp name := by
  obtain ⟨x, hx, hgives⟩ := h.givenUp name n hn hlive hretired hloaded
  rcases List.mem_cons.mp hx with rfl | hx
  · exact ⟨t', List.mem_cons_self, ht hgives⟩
  · exact ⟨x, List.mem_cons_of_mem _ hx, hgives⟩

/-- A step that leaves the manager's own state as it is. -/
theorem of_control (h : ManagerInv m sh (t :: ts)) (hstarted : sh'.started = sh.started)
    (hretired : sh'.retired = sh.retired) (hlocked : sh'.locked = sh.locked) (hwg : sh'.wg = sh.wg)
    (hlive : sh'.live.Perm sh.live) (hfetched : ∀ name, sh.fetched name ≤ sh'.fetched name)
    (hlocks : t'.locks = t.locks) (hkeeps : t'.keeps m = t.keeps m) (hrefreshes : t'.refreshes = t.refreshes)
    (hknows : t'.Knows m sh')
    (hledger : RefLedger (Value.Fetched sh') sh'.refs (sh'.owned ++ (t' :: ts).filterMap Thread.reference?)
      ((t' :: ts).filterMap Thread.closing? ++ sh'.closed))
    (howned : ∀ v ∈ sh'.owned, sh'.slot v.1 = some v.2)
    (hslot : ∀ name n, sh'.slot name = some n → n < sh'.fetched name)
    (hgiven : ∀ name n, sh'.slot name = some n → name ∉ sh'.live → sh'.retired = false → sh'.loaded name = true →
      ∃ t ∈ t' :: ts, t.givesUp name) : ManagerInv m sh' (t' :: ts) := by
  have hks : (t' :: ts).filterMap (Thread.keeps m) = (t :: ts).filterMap (Thread.keeps m) := by
    rw [filterMap_cons_toList, filterMap_cons_toList, hkeeps]
  refine ⟨hledger, hlive.nodup_iff.mpr h.live_nodup, howned, hslot, ?_, ?_, ?_, ?_, ?_, fun hpos name hn => ?_,
    fun x hx => ?_, hgiven⟩
  · rw [List.countP_cons, hlocks, ← List.countP_cons, hlocked]
    exact h.locked
  · rw [hks]
    exact h.keepers
  · rw [hks, Shared.settled, hstarted, hretired]
    exact hlive.trans h.kept
  · rw [List.countP_cons, hrefreshes, ← List.countP_cons, hwg]
    exact h.wg
  · rw [hretired, hstarted]
    exact h.retired
  · exact hlive.mem_iff.mpr (h.refreshing (hwg ▸ hpos) name hn)
  · rcases List.mem_cons.mp hx with rfl | hx
    · exact hknows
    · exact (h.knows x (List.mem_cons_of_mem _ hx)).mono hfetched (fun hs => hstarted.trans hs)
        (fun hr => hretired.trans hr) (fun _ => ⟨hstarted, hretired⟩) fun _ hw => hwg.trans hw

/-- A goroutine goes on without touching the shared state. -/
theorem quiet (h : ManagerInv m sh (t :: ts)) (href : t'.reference? = t.reference?) (hclose : t'.closing? = t.closing?)
    (hlocks : t'.locks = t.locks) (hkeeps : t'.keeps m = t.keeps m) (hrefreshes : t'.refreshes = t.refreshes)
    (hgives : ∀ name, t.givesUp name → t'.givesUp name) (hknows : t'.Knows m sh) : ManagerInv m sh (t' :: ts) := by
  refine h.of_control rfl rfl rfl rfl (List.Perm.refl _) (fun _ => Nat.le_refl _) hlocks hkeeps hrefreshes hknows ?_
    h.owned_slot h.slot_fetched fun name n hn hl hr hf => h.givenUp_cons hn hl hr hf (hgives name)
  have hledger := h.ledger
  rw [filterMap_cons_toList, filterMap_cons_toList] at hledger ⊢
  rw [href, hclose]
  exact hledger

/-! ## Steps on values -/

theorem ledger_cons (h : ManagerInv m sh (t :: ts)) : RefLedger (Value.Fetched sh) sh.refs
    (sh.owned ++ (t.reference?.toList ++ ts.filterMap Thread.reference?))
    ((t.closing?.toList ++ ts.filterMap Thread.closing?) ++ sh.closed) := by
  have hledger := h.ledger
  rw [filterMap_cons_toList, filterMap_cons_toList] at hledger
  exact hledger

/-- A fetch gives the goroutine a value of its own. -/
theorem fetched (h : ManagerInv m sh (t :: ts)) (name : String) (href : t.reference? = none)
    (href' : t'.reference? = some (name, sh.fetched name)) (hclose : t'.closing? = t.closing?)
    (hlocks : t'.locks = t.locks) (hkeeps : t'.keeps m = t.keeps m) (hrefreshes : t'.refreshes = t.refreshes)
    (hgives : ∀ n, ¬ t.givesUp n) (hknows : t'.Knows m sh) : ManagerInv m (sh.fetch name) (t' :: ts) := by
  have hle : ∀ name', sh.fetched name' ≤ (sh.fetch name).fetched name' := by
    intro name'
    by_cases hn : name' = name
    · subst hn
      simp [Shared.fetch]
    · simp [Shared.fetch, hn]
  have hledger := h.ledger_cons
  rw [href] at hledger
  have hmade : ∀ v, Value.Fetched (sh.fetch name) v ↔ Value.Fetched sh v ∨ v = (name, sh.fetched name) := by
    rintro ⟨name', n⟩
    by_cases hn : name' = name
    · subst hn
      simp only [Value.Fetched, Shared.fetch, Function.update_self, Prod.mk.injEq, true_and]
      omega
    · simp [Value.Fetched, Shared.fetch, hn]
  have hne : ∀ v, v ≠ (name, sh.fetched name) → (sh.fetch name).refs v = sh.refs v := fun v hv => by
    simp [Shared.fetch, hv]
  have hnew := hledger.create hne (Nat.lt_irrefl _) hmade (by simp [Shared.fetch])
  refine h.of_control rfl rfl rfl rfl (List.Perm.refl _) hle hlocks hkeeps hrefreshes
    (hknows.mono hle id id (fun _ => ⟨rfl, rfl⟩) fun _ hw => hw) ?_ h.owned_slot
    (fun name' n hn => Nat.lt_of_lt_of_le (h.slot_fetched name' n hn) (hle name'))
    fun name' n hn hl hr hf => h.givenUp_cons hn hl hr hf fun hg => absurd hg (hgives name')
  rw [filterMap_cons_toList, filterMap_cons_toList, href', hclose]
  exact hnew.perm List.perm_middle (List.Perm.refl _)

/-- A counter goes up for a goroutine that found it positive. -/
theorem getSwapped {name : String} {v : Value} {n : Int} (h : ManagerInv m sh (.getSwap name v n :: ts))
    (hn : sh.refs v = n) : ManagerInv m (sh.setRefs v (n + 1)) (.handle v :: ts) := by
  obtain ⟨hname, hfetched, hpos⟩ : v.1 = name ∧ v.2 < sh.fetched name ∧ 0 < n := h.knows _ List.mem_cons_self
  have hne : ∀ w, w ≠ v → (sh.setRefs v (n + 1)).refs w = sh.refs w := fun w hw => by simp [Shared.setRefs, hw]
  have hledger := h.ledger_cons.acquire hne (by rw [Value.Fetched, hname]; exact hfetched) (hn ▸ hpos)
    (by simp [Shared.setRefs, hn])
  refine h.of_control rfl rfl rfl rfl (List.Perm.refl _) (fun _ => Nat.le_refl _) rfl rfl rfl trivial ?_ h.owned_slot
    h.slot_fetched fun name' n hn hl hr hf => h.givenUp_cons hn hl hr hf nofun
  rw [filterMap_cons_toList, filterMap_cons_toList]
  exact hledger.perm List.perm_middle (List.Perm.refl _)

/-- `release` counts down, and the last reference leaves the goroutine with the value to close. -/
theorem dropped {v : Value} {after : After} (h : ManagerInv m sh (.drop v after :: ts)) :
    (sh.refs v ≠ 1 → ManagerInv m (sh.setRefs v (sh.refs v - 1)) (after.next :: ts)) ∧
    (sh.refs v = 1 → ManagerInv m (sh.setRefs v (sh.refs v - 1)) (.close v after :: ts)) := by
  have hledger : RefLedger (Value.Fetched sh) sh.refs (v :: (sh.owned ++ ts.filterMap Thread.reference?))
      (ts.filterMap Thread.closing? ++ sh.closed) := h.ledger_cons.perm List.perm_middle.symm (List.Perm.refl _)
  have hne : ∀ w, w ≠ v → (sh.setRefs v (sh.refs v - 1)).refs w = sh.refs w := fun w hw => by simp [Shared.setRefs, hw]
  have hself : (sh.setRefs v (sh.refs v - 1)).refs v = sh.refs v - 1 := by simp [Shared.setRefs]
  have hknown : Thread.Knows m sh (.drop v after) := h.knows _ List.mem_cons_self
  constructor
  · intro hmore
    refine h.of_control rfl rfl rfl rfl (List.Perm.refl _) (fun _ => Nat.le_refl _) ?_ ?_ ?_ ?_ ?_ h.owned_slot
      h.slot_fetched fun name' n hn hl hr hf => h.givenUp_cons hn hl hr hf ?_
    · cases after <;> rfl
    · cases after <;> rfl
    · cases after <;> rfl
    · cases after <;> exact hknown
    · have hrest := hledger.release hne hself hmore
      cases after <;> exact hrest
    · cases after <;> exact id
  · intro hlast
    refine h.of_control rfl rfl rfl rfl (List.Perm.refl _) (fun _ => Nat.le_refl _) ?_ ?_ ?_ ?_ ?_ h.owned_slot
      h.slot_fetched fun name' n hn hl hr hf => h.givenUp_cons hn hl hr hf ?_
    · cases after <;> rfl
    · cases after <;> rfl
    · cases after <;> rfl
    · cases after <;> exact hknown
    · exact hledger.releaseLast hne hself hlast
    · cases after <;> exact id

theorem closed {v : Value} {after : After} (h : ManagerInv m sh (.close v after :: ts)) :
    ManagerInv m { sh with closed := if v ∈ sh.closed then sh.closed else v :: sh.closed } (after.next :: ts) := by
  have hknown : Thread.Knows m sh (.close v after) := h.knows _ List.mem_cons_self
  have hledger := h.ledger_cons
  have hnot : v ∉ sh.closed := by
    have hnodup : (v :: (ts.filterMap Thread.closing? ++ sh.closed)).Nodup := hledger.ended_nodup
    exact fun hv => (List.nodup_cons.mp hnodup).1 (List.mem_append_right _ hv)
  rw [if_neg hnot]
  refine h.of_control rfl rfl rfl rfl (List.Perm.refl _) (fun _ => Nat.le_refl _) ?_ ?_ ?_ ?_ ?_ h.owned_slot
    h.slot_fetched fun name' n hn hl hr hf => h.givenUp_cons hn hl hr hf ?_
  · cases after <;> rfl
  · cases after <;> rfl
  · cases after <;> rfl
  · cases after <;> exact hknown
  · have hended : (ts.filterMap Thread.closing? ++ v :: sh.closed).Perm
        (v :: (ts.filterMap Thread.closing? ++ sh.closed)) := List.perm_middle
    cases after <;> exact hledger.perm (List.Perm.refl _) hended
  · cases after <;> exact id

/-! ## The slots -/

theorem live_disown {v : Value} (hv : v ∈ sh.owned) : sh.live.Perm (v.1 :: (sh.disown v).live) :=
  (List.perm_cons_erase hv).map Prod.fst

/-- A slot takes a new value where the manager has no reference to an old one. -/
theorem owned_put {v : Value} (h : ∀ w ∈ sh.owned, sh.slot w.1 = some w.2) (hv : v.1 ∉ sh.live) :
    ∀ w ∈ (sh.put v).owned, (sh.put v).slot w.1 = some w.2 := by
  intro w hw
  rcases List.mem_cons.mp hw with rfl | hw
  · simp [Shared.put]
  · have hne : w.1 ≠ v.1 := fun he => hv (he ▸ List.mem_map_of_mem hw)
    simpa [Shared.put, hne] using h w hw

theorem slot_put {v : Value} (h : ∀ name n, sh.slot name = some n → n < sh.fetched name) (hv : v.Fetched sh)
    (name : String) (n : Nat) (hn : (sh.put v).slot name = some n) : n < (sh.put v).fetched name := by
  by_cases he : name = v.1
  · subst he
    rw [slot_put_self] at hn
    rw [← Option.some.inj hn]
    exact hv
  · rw [slot_put_of_ne sh v he] at hn
    exact h name n hn

/-- The refresh loop puts the new value in the slot and takes over the reference to the old one. -/
theorem swapped {name : String} {v : Value} {n : Nat} (h : ManagerInv m sh (.swap name v :: ts))
    (hn : sh.slot name = some n) :
    ManagerInv m ((sh.disown (name, n)).put v) (.drop (name, n) (.refresh name) :: ts) := by
  obtain ⟨rfl, hname, hstarted⟩ : v.1 = name ∧ name ∈ m.names ∧ sh.started = true := h.knows _ List.mem_cons_self
  have hwg : 0 < sh.wg := by
    rw [h.wg, List.countP_cons]
    exact Nat.succ_pos _
  have hown : (v.1, n) ∈ sh.owned := (h.mem_live_iff hn).mp (h.refreshing hwg _ hname)
  have hlive := live_disown hown
  have hnot : v.1 ∉ (sh.disown (v.1, n)).live := (List.nodup_cons.mp (hlive.nodup_iff.mp h.live_nodup)).1
  have hledger : RefLedger (Value.Fetched sh) sh.refs (sh.owned ++ (v :: ts.filterMap Thread.reference?))
      (ts.filterMap Thread.closing? ++ sh.closed) := h.ledger_cons
  have hv : v.Fetched sh := hledger.held_made v (List.mem_append_right _ List.mem_cons_self)
  refine h.of_control rfl rfl rfl rfl hlive.symm (fun _ => Nat.le_refl _) rfl rfl rfl ⟨hname, hstarted⟩ ?_
    (owned_put (fun w hw => h.owned_slot w (List.mem_of_mem_erase hw)) hnot)
    (slot_put h.slot_fetched hv) fun name' n' hn' hl hr hf => ?_
  · refine hledger.perm ?_ (List.Perm.refl _)
    have hp : (v :: (sh.owned.erase (v.1, n) ++ ((v.1, n) :: ts.filterMap Thread.reference?))).Perm
        (v :: ((v.1, n) :: sh.owned.erase (v.1, n) ++ ts.filterMap Thread.reference?)) := List.perm_middle.cons v
    exact hp.trans ((((List.perm_cons_erase hown).symm.append_right _).cons v).trans List.perm_middle.symm)
  · by_cases he : name' = v.1
    · rw [he] at hl
      exact absurd List.mem_cons_self hl
    · rw [slot_put_of_ne _ v he] at hn'
      exact h.givenUp_cons hn' (fun hl' => hl (hlive.mem_iff.mp hl')) hr hf nofun

/-! ## Steps of `Start` and `Stop` -/

/-- The goroutine that accounts for the values goes on, with other resources to account for. -/
theorem of_keeper {l l' : List String} (h : ManagerInv m sh (t :: ts)) (ht : t.keeps m = some l)
    (ht' : t'.keeps m = some l') (hlive : sh'.live.Perm l') (hnodup : sh'.live.Nodup)
    (hstarted : sh'.started = sh.started) (hretired : sh'.retired = sh.retired) (hlocked : sh'.locked = sh.locked)
    (hwg : sh'.wg = sh.wg) (hfetched : sh'.fetched = sh.fetched) (hlocks : t'.locks = t.locks)
    (hrefreshes : t'.refreshes = t.refreshes) (hrefreshing : 0 < sh.wg → ∀ name ∈ m.names, name ∈ sh'.live)
    (hknows : t'.Knows m sh')
    (hledger : RefLedger (Value.Fetched sh') sh'.refs (sh'.owned ++ (t' :: ts).filterMap Thread.reference?)
      ((t' :: ts).filterMap Thread.closing? ++ sh'.closed))
    (howned : ∀ v ∈ sh'.owned, sh'.slot v.1 = some v.2)
    (hslot : ∀ name n, sh'.slot name = some n → n < sh'.fetched name)
    (hgiven : ∀ name n, sh'.slot name = some n → name ∉ sh'.live → sh'.retired = false → sh'.loaded name = true →
      ∃ t ∈ t' :: ts, t.givesUp name) : ManagerInv m sh' (t' :: ts) := by
  have hrest := (h.keeps_alone ht).1
  refine ⟨hledger, hnodup, howned, hslot, ?_, ?_, ?_, ?_, ?_, fun hpos => hrefreshing (hwg ▸ hpos), fun x hx => ?_,
    hgiven⟩
  · rw [List.countP_cons, hlocks, ← List.countP_cons, hlocked]
    exact h.locked
  · rw [List.filterMap_cons_some ht', hrest]
    exact Nat.le_refl _
  · rw [List.filterMap_cons_some ht']
    exact hlive
  · rw [List.countP_cons, hrefreshes, ← List.countP_cons, hwg]
    exact h.wg
  · rw [hretired, hstarted]
    exact h.retired
  · rcases List.mem_cons.mp hx with rfl | hx
    · exact hknows
    · exact (h.knows x (List.mem_cons_of_mem _ hx)).mono (fun name => Nat.le_of_eq (by rw [hfetched]))
        (fun hs => hstarted.trans hs) (fun hr => hretired.trans hr) (fun _ => ⟨hstarted, hretired⟩)
        fun _ hw => hwg.trans hw

/-- `Start` puts a fetched value in its slot. -/
theorem stored {v : Value} {todo loaded : List String} (h : ManagerInv m sh (.store v todo loaded :: ts)) :
    ManagerInv m (sh.put v) (.setLoaded v.1 todo loaded :: ts) := by
  obtain ⟨hnames, hstarted⟩ : (loaded ++ v.1 :: todo).Perm m.names ∧ sh.started = false := h.knows _ List.mem_cons_self
  have hkept := (h.keeps_alone rfl).2
  have hnot : v.1 ∉ sh.live := by
    intro hv
    have hnodup := List.nodup_append'.mp (hnames.nodup_iff.mpr m.nodup)
    exact hnodup.2.2 (hkept.mem_iff.mp hv) List.mem_cons_self
  have hledger : RefLedger (Value.Fetched sh) sh.refs (sh.owned ++ (v :: ts.filterMap Thread.reference?))
      (ts.filterMap Thread.closing? ++ sh.closed) := h.ledger_cons
  have hv : v.Fetched sh := hledger.held_made v (List.mem_append_right _ List.mem_cons_self)
  refine h.of_keeper rfl rfl ((hkept.cons v.1).trans (List.perm_append_singleton v.1 loaded).symm)
    (List.nodup_cons.mpr ⟨hnot, h.live_nodup⟩) rfl rfl rfl rfl rfl rfl rfl
    (fun hpos name hn => List.mem_cons_of_mem _ (h.refreshing hpos name hn)) ⟨hnames, hstarted⟩
    (hledger.perm List.perm_middle.symm (List.Perm.refl _)) (owned_put h.owned_slot hnot) (slot_put h.slot_fetched hv) ?_
  intro name n hn hl hr hf
  have hne : name ≠ v.1 := by
    rintro rfl
    exact hl List.mem_cons_self
  rw [slot_put_of_ne sh v hne] at hn
  exact h.givenUp_cons hn (fun hl' => hl (List.mem_cons_of_mem _ hl')) hr hf nofun

/-- The manager's reference to a resource's value passes to the goroutine that drops it. -/
theorem disowned {name : String} {n : Nat} {rest : List String} {after : After} (h : ManagerInv m sh (t :: ts))
    (hn : sh.slot name = some n) (ht : t.keeps m = some (name :: rest))
    (hkeeps : Thread.keeps m (.drop (name, n) after) = some rest) (href : t.reference? = none)
    (hclose : t.closing? = none) (hlocks : Thread.locks (.drop (name, n) after) = t.locks)
    (hrefreshes : Thread.refreshes (.drop (name, n) after) = t.refreshes) (hwg : sh.wg = 0)
    (hknows : Thread.Knows m sh (.drop (name, n) after))
    (hgives : sh.retired = false → Thread.givesUp name (.drop (name, n) after)) (hfree : ∀ other, ¬ t.givesUp other) :
    ManagerInv m (sh.disown (name, n)) (.drop (name, n) after :: ts) := by
  have hkept := (h.keeps_alone ht).2
  have hown : (name, n) ∈ sh.owned := (h.mem_live_iff hn).mp (hkept.mem_iff.mpr List.mem_cons_self)
  have hlive := live_disown hown
  have hledger := h.ledger_cons
  rw [href, hclose] at hledger
  refine h.of_keeper ht hkeeps ((hlive.symm.trans hkept).cons_inv)
    (List.nodup_cons.mp (hlive.nodup_iff.mp h.live_nodup)).2 rfl rfl rfl rfl rfl hlocks hrefreshes
    (fun hpos => absurd hpos (by omega))
    (hknows.mono (fun _ => Nat.le_refl _) id id (fun _ => ⟨rfl, rfl⟩) fun _ hw => hw) ?_
    (fun w hw => h.owned_slot w (List.mem_of_mem_erase hw)) h.slot_fetched fun other k hk hl hr hf => ?_
  · exact hledger.perm (List.perm_middle.trans ((List.perm_cons_erase hown).symm.append_right _)) (List.Perm.refl _)
  · by_cases he : other = name
    · rw [he]
      exact ⟨_, List.mem_cons_self, hgives hr⟩
    · have hl' : other ∉ sh.live := fun hl' =>
        hl ((List.mem_cons.mp (hlive.mem_iff.mp hl')).resolve_left he)
      exact h.givenUp_cons hk hl' hr hf fun hg => absurd hg (hfree other)

theorem wg_eq_zero (h : ManagerInv m sh ts) (hs : sh.started = false) : sh.wg = 0 := by
  rw [h.wg, List.countP_eq_zero]
  intro t ht hrefreshes
  have hknown := h.knows t ht
  have hstarted : sh.started = true := by
    cases t with
    | tick | refetch => exact hknown.2
    | swap => exact hknown.2.2
    | drop v after | close v after =>
      cases after with
      | refresh => exact hknown.2
      | handle | rollback | stop => cases hrefreshes
    | _ => cases hrefreshes
  rw [hs] at hstarted
  cases hstarted

theorem setLoaded {name : String} {todo loaded : List String} (h : ManagerInv m sh (.setLoaded name todo loaded :: ts)) :
    ManagerInv m { sh with loaded := Function.update sh.loaded name true } (.fetch todo (loaded ++ [name]) :: ts) := by
  obtain ⟨hnames, hstarted⟩ : (loaded ++ name :: todo).Perm m.names ∧ sh.started = false := h.knows _ List.mem_cons_self
  have hkept := (h.keeps_alone rfl).2
  refine h.of_control rfl rfl rfl rfl (List.Perm.refl _) (fun _ => Nat.le_refl _) rfl rfl rfl
    ⟨by rw [List.append_assoc]; exact hnames, hstarted⟩ h.ledger h.owned_slot h.slot_fetched ?_
  intro other n hn hl hr hf
  have hne : other ≠ name := by
    rintro rfl
    exact hl (hkept.mem_iff.mpr (List.mem_append_right _ (List.mem_singleton_self _)))
  have hf : sh.loaded other = true := by
    have : (Function.update sh.loaded name true) other = true := hf
    rwa [Function.update_of_ne hne] at this
  exact h.givenUp_cons hn hl hr hf nofun

theorem cleared {name : String} {rest : List String} (h : ManagerInv m sh (.clear name rest :: ts)) :
    ManagerInv m { sh with loaded := Function.update sh.loaded name false } (.rollback rest :: ts) := by
  refine h.of_control rfl rfl rfl rfl (List.Perm.refl _) (fun _ => Nat.le_refl _) rfl rfl rfl
    (h.knows _ List.mem_cons_self : sh.started = false) h.ledger h.owned_slot h.slot_fetched ?_
  intro other n hn hl hr hf
  have hf : (Function.update sh.loaded name false) other = true := hf
  have hne : other ≠ name := by
    rintro rfl
    rw [Function.update_self] at hf
    cases hf
  rw [Function.update_of_ne hne] at hf
  exact h.givenUp_cons hn hl hr hf fun hg => absurd hg.symm hne

/-- `Start` takes the mutex. -/
theorem begun {order : List String} (h : ManagerInv m sh (.start :: ts)) (hlocked : sh.locked = false)
    (hstarted : sh.started = false) (horder : order.Perm m.names) :
    ManagerInv m { sh with locked := true } (.fetch order [] :: ts) := by
  have hnone : ts.filterMap (Thread.keeps m) = [] := by
    rw [List.filterMap_eq_nil_iff]
    intro t ht
    have hknown := h.knows t (List.mem_cons_of_mem _ ht)
    have hlocks := h.not_locks hlocked (List.mem_cons_of_mem _ ht)
    have habsurd : sh.started = true → False := fun hs => by rw [hstarted] at hs; cases hs
    cases t with
    | fetch | store | setLoaded | rollback | clear | launch => cases hlocks
    | cancel | wait | retire => exact (habsurd hknown.1).elim
    | drop v after | close v after =>
      cases after with
      | rollback => cases hlocks
      | stop => exact (habsurd hknown.1).elim
      | handle | refresh => rfl
    | _ => rfl
  have hkept : sh.live.Perm [] := by
    have := h.kept
    rw [List.filterMap_cons_none rfl, hnone] at this
    simpa [Shared.settled, hstarted] using this
  refine ⟨h.ledger, h.live_nodup, h.owned_slot, h.slot_fetched, ?_, ?_, ?_, h.wg, h.retired, h.refreshing,
    fun x hx => ?_, fun name n hn hl hr hf => h.givenUp_cons hn hl hr hf nofun⟩
  · have hcount : ts.countP Thread.locks = 0 := by
      have := h.locked
      rwa [hlocked, List.countP_cons] at this
    rw [List.countP_cons, hcount]
    rfl
  · rw [filterMap_cons_toList, hnone]
    exact Nat.le_refl _
  · exact hkept
  · rcases List.mem_cons.mp hx with rfl | hx
    · exact ⟨horder, hstarted⟩
    · exact (h.knows x (List.mem_cons_of_mem _ hx)).mono (fun _ => Nat.le_refl _) id id (fun _ => ⟨rfl, rfl⟩)
        fun _ hw => hw

/-- Nobody accounts for the values any more; `Start` gives the mutex back with that. -/
theorem left {l : List String} (h : ManagerInv m sh (t :: ts)) (ht : t.keeps m = some l)
    (hsettled : l.Perm (sh.settled m)) (href : t.reference? = none) (hclose : t.closing? = none)
    (hrefreshes : t.refreshes = false) (hfree : ∀ other, ¬ t.givesUp other) :
    ManagerInv m { sh with locked := sh.locked && !t.locks } (.gone :: ts) := by
  obtain ⟨hrest, hkept⟩ := h.keeps_alone ht
  refine ⟨?_, h.live_nodup, h.owned_slot, h.slot_fetched, ?_, ?_, ?_, ?_, h.retired, h.refreshing,
    fun x hx => ?_, fun name n hn hl hr hf => h.givenUp_cons hn hl hr hf fun hg => absurd hg (hfree name)⟩
  · have hledger := h.ledger_cons
    rw [href, hclose] at hledger
    exact hledger
  · show ts.countP Thread.locks = if (sh.locked && !t.locks) = true then 1 else 0
    cases hlocks : t.locks with
    | true =>
      rw [Bool.not_true, Bool.and_false]
      exact (h.locks_alone hlocks).2
    | false =>
      have hlocked := h.locked
      rw [List.countP_cons, hlocks] at hlocked
      rw [Bool.not_false, Bool.and_true]
      exact hlocked
  · rw [List.filterMap_cons_none rfl, hrest]
    exact Nat.zero_le _
  · rw [List.filterMap_cons_none rfl, hrest]
    exact hkept.trans hsettled
  · have := h.wg
    rw [List.countP_cons, hrefreshes] at this
    exact this
  · rcases List.mem_cons.mp hx with rfl | hx
    · trivial
    · exact (h.knows x (List.mem_cons_of_mem _ hx)).mono (fun _ => Nat.le_refl _) id id (fun _ => ⟨rfl, rfl⟩)
        fun _ hw => hw

/-- Everything is loaded: the manager counts as started, still under the mutex. -/
theorem allLoaded {loaded order : List String} (h : ManagerInv m sh (.fetch [] loaded :: ts))
    (horder : order.Perm m.names) :
    ManagerInv m { sh with started := true, cancelled := false } (.launch order :: ts) := by
  have hknown : Thread.Knows m sh (.fetch [] loaded) := h.knows _ List.mem_cons_self
  obtain ⟨hnames, hstarted⟩ := hknown
  rw [List.append_nil] at hnames
  obtain ⟨hrest, hkept⟩ := h.keeps_alone rfl
  have hretired : sh.retired = false := by
    cases hr : sh.retired with
    | false => rfl
    | true => exact absurd (h.retired hr) (by rw [hstarted]; exact Bool.false_ne_true)
  refine ⟨h.ledger, h.live_nodup, h.owned_slot, h.slot_fetched, h.locked, ?_, ?_, h.wg, fun _ => rfl, h.refreshing,
    fun x hx => ?_, fun name n hn hl hr hf => h.givenUp_cons hn hl hr hf nofun⟩
  · rw [filterMap_cons_toList, hrest]
    exact Nat.le_refl _
  · rw [filterMap_cons_toList]
    exact hkept.trans hnames
  · rcases List.mem_cons.mp hx with rfl | hx
    · exact ⟨rfl, hretired, fun name hn => horder.mem_iff.mp hn⟩
    · have hfree : x.locks = false := by
        have := List.countP_eq_zero.mp (h.locks_alone rfl).2 x hx
        exact Bool.eq_false_iff.mpr this
      exact (h.knows x (List.mem_cons_of_mem _ hx)).mono (fun _ => Nat.le_refl _) (fun _ => rfl) id
        (fun hl => by rw [hfree] at hl; cases hl) fun _ hw => hw

/-- `Start` launches one refresh loop. -/
theorem launch {name : String} {todo : List String} (h : ManagerInv m sh (.launch (name :: todo) :: ts)) :
    ManagerInv m { sh with wg := sh.wg + 1 } (.launch todo :: .tick name :: ts) := by
  have hknown : Thread.Knows m sh (.launch (name :: todo)) := h.knows _ List.mem_cons_self
  obtain ⟨hstarted, hretired, htodo⟩ := hknown
  obtain ⟨hrest, hkept⟩ := h.keeps_alone rfl
  refine ⟨h.ledger, h.live_nodup, h.owned_slot, h.slot_fetched, h.locked, h.keepers, h.kept, ?_, h.retired,
    fun _ other hn => hkept.mem_iff.mpr hn, fun x hx => ?_, fun other n hn hl hr hf => ?_⟩
  · have := h.wg
    rw [List.countP_cons] at this
    rw [List.countP_cons, List.countP_cons]
    show sh.wg + 1 = _
    rw [this]
    rfl
  · rcases List.mem_cons.mp hx with rfl | hx
    · exact ⟨hstarted, hretired, fun other hn => htodo other (List.mem_cons_of_mem _ hn)⟩
    rcases List.mem_cons.mp hx with rfl | hx
    · exact ⟨htodo name List.mem_cons_self, hstarted⟩
    · refine (h.knows x (List.mem_cons_of_mem _ hx)).mono (fun _ => Nat.le_refl _) id id (fun _ => ⟨rfl, rfl⟩) ?_
      exact fun hk => absurd (List.filterMap_eq_nil_iff.mp hrest x hx) hk
  · obtain ⟨x, hx, hgives⟩ := h.givenUp other n hn hl hr hf
    rcases List.mem_cons.mp hx with rfl | hx
    · exact hgives.elim
    · exact ⟨x, List.mem_cons_of_mem _ (List.mem_cons_of_mem _ hx), hgives⟩

/-- The first `Stop` retires the manager and accounts for its values from then on. -/
theorem retired_by_stop (h : ManagerInv m sh (.stop :: ts)) (hlocked : sh.locked = false) (hstarted : sh.started = true) :
    ManagerInv m { sh with retired := true } (.cancel sh.retired :: ts) := by
  cases hretired : sh.retired with
  | true =>
    exact h.of_control rfl hretired.symm rfl rfl (List.Perm.refl _) (fun _ => Nat.le_refl _) rfl rfl rfl ⟨hstarted, rfl⟩
      h.ledger h.owned_slot h.slot_fetched fun _ _ _ _ hr _ => absurd hr Bool.noConfusion
  | false =>
    have hnone : ts.filterMap (Thread.keeps m) = [] := by
      rw [List.filterMap_eq_nil_iff]
      intro t ht
      have hknown := h.knows t (List.mem_cons_of_mem _ ht)
      have hlocks := h.not_locks hlocked (List.mem_cons_of_mem _ ht)
      have habsurd : sh.retired = true → False := fun hr => by rw [hretired] at hr; cases hr
      cases t with
      | fetch | store | setLoaded | rollback | clear | launch => cases hlocks
      | cancel | wait => exact (habsurd hknown.2).elim
      | retire => exact (habsurd hknown.2.1).elim
      | drop v after | close v after =>
        cases after with
        | rollback => cases hlocks
        | stop => exact (habsurd hknown.2.1).elim
        | handle | refresh => rfl
      | _ => rfl
    have hkept : sh.live.Perm m.names := by
      have := h.kept
      rw [List.filterMap_cons_none rfl, hnone] at this
      simpa [Shared.settled, hstarted, hretired] using this
    refine ⟨h.ledger, h.live_nodup, h.owned_slot, h.slot_fetched, h.locked, ?_, ?_, h.wg, fun _ => hstarted,
      h.refreshing, fun x hx => ?_, fun _ _ _ _ hr _ => absurd hr Bool.noConfusion⟩
    · rw [filterMap_cons_toList, hnone]
      exact Nat.le_refl _
    · rw [filterMap_cons_toList]
      exact hkept
    · rcases List.mem_cons.mp hx with rfl | hx
      · exact ⟨hstarted, rfl⟩
      · have hfree := h.not_locks hlocked (List.mem_cons_of_mem _ hx)
        exact (h.knows x (List.mem_cons_of_mem _ hx)).mono (fun _ => Nat.le_refl _) id (fun _ => rfl)
          (fun hl => by rw [hfree] at hl; cases hl) fun _ hw => hw

/-- No refresh loop is left, and the first `Stop` goes on to the values. -/
theorem waited {order : List String} (h : ManagerInv m sh (.wait false :: ts)) (hwg : sh.wg = 0)
    (horder : order.Perm m.names) : ManagerInv m sh (.retire order :: ts) := by
  have hknown : Thread.Knows m sh (.wait false) := h.knows _ List.mem_cons_self
  exact h.of_keeper rfl rfl ((h.keeps_alone rfl).2.trans horder.symm) h.live_nodup rfl rfl rfl rfl rfl rfl rfl
    h.refreshing ⟨hknown.1, hknown.2, hwg⟩ h.ledger h.owned_slot h.slot_fetched
    fun name n hn hl hr hf => h.givenUp_cons hn hl hr hf nofun

theorem tickDone {name : String} (h : ManagerInv m sh (.tick name :: ts)) :
    ManagerInv m { sh with wg := sh.wg - 1 } (.gone :: ts) := by
  have hwg := h.wg
  rw [List.countP_cons] at hwg
  have hwg : sh.wg = ts.countP Thread.refreshes + 1 := hwg
  refine ⟨h.ledger, h.live_nodup, h.owned_slot, h.slot_fetched, h.locked, h.keepers, h.kept, ?_, h.retired, ?_,
    fun x hx => ?_, fun name n hn hl hr hf => h.givenUp_cons hn hl hr hf nofun⟩
  · show sh.wg - 1 = _
    rw [hwg]
    rfl
  · exact fun hpos => h.refreshing (by have hpos : 0 < sh.wg - 1 := hpos; omega)
  · rcases List.mem_cons.mp hx with rfl | hx
    · trivial
    · refine (h.knows x (List.mem_cons_of_mem _ hx)).mono (fun _ => Nat.le_refl _) id id (fun _ => ⟨rfl, rfl⟩) ?_
      exact fun _ hw => by show sh.wg - 1 = 0; omega

/-- A goroutine that accounts for a resource finds a value in its slot. -/
theorem slot_kept {name : String} {rest : List String} (h : ManagerInv m sh (t :: ts))
    (ht : t.keeps m = some (name :: rest)) : sh.slot name ≠ none := by
  obtain ⟨n, hn⟩ := h.slot_of_live ((h.keeps_alone ht).2.mem_iff.mpr List.mem_cons_self)
  rw [hn]
  exact Option.some_ne_none n

/-! ## Every step -/

theorem step {ev : Option Got} {new : List Thread} (h : ManagerInv m sh (t :: ts))
    (hstep : t.Step m sh ev sh' new) : ManagerInv m sh' (new ++ ts) := by
  have hknown := h.knows t List.mem_cons_self
  cases hstep with
  | alreadyStarted => exact h.quiet rfl rfl rfl rfl rfl nofun trivial
  | begin hlocked hstarted horder => exact h.begun hlocked hstarted horder
  | fetchFails => exact h.quiet rfl rfl rfl rfl rfl nofun hknown.2
  | fetch => exact h.fetched _ rfl rfl rfl rfl rfl rfl nofun hknown
  | store => exact h.stored
  | setLoaded => exact h.setLoaded
  | rollback hn =>
    exact h.disowned hn rfl rfl rfl rfl rfl rfl (h.wg_eq_zero hknown) hknown (fun _ => rfl) nofun
  | rollbackEmpty hn => exact absurd hn (h.slot_kept rfl)
  | clear => exact h.cleared
  | rolledBack =>
    have hsettled : sh.settled m = [] := by
      have hs : sh.started = false := hknown
      rw [Shared.settled, hs]
      rfl
    have := h.left rfl (by rw [hsettled]) rfl rfl rfl nofun
    rwa [Bool.and_comm] at this
  | allLoaded horder => exact h.allLoaded horder
  | launch => exact h.launch
  | launched =>
    have hsettled : sh.settled m = m.names := by
      rw [Shared.settled, hknown.1, hknown.2.1]
      rfl
    have := h.left rfl (by rw [hsettled]) rfl rfl rfl nofun
    rwa [Bool.and_comm] at this
  | notStarted => exact h.quiet rfl rfl rfl rfl rfl nofun trivial
  | stop hlocked hstarted => exact h.retired_by_stop hlocked hstarted
  | @cancel already =>
    refine h.of_control rfl rfl rfl rfl (List.Perm.refl _) (fun _ => Nat.le_refl _) rfl ?_ rfl hknown h.ledger
      h.owned_slot h.slot_fetched fun name n hn hl hr hf => h.givenUp_cons hn hl hr hf nofun
    cases already <;> rfl
  | waitedAgain => exact h.quiet rfl rfl rfl rfl rfl nofun trivial
  | waited hwg horder => exact h.waited hwg horder
  | retire hn =>
    refine h.disowned hn rfl rfl rfl rfl rfl rfl hknown.2.2 hknown (fun hr => ?_) nofun
    rw [hknown.2.1] at hr
    cases hr
  | retireEmpty hn => exact absurd hn (h.slot_kept rfl)
  | stopped =>
    have hsettled : sh.settled m = [] := by
      rw [Shared.settled, hknown.2.1, Bool.not_true, Bool.and_false]
      rfl
    have := h.left rfl (by rw [hsettled]) rfl rfl rfl nofun
    rwa [show Thread.locks (.retire []) = false from rfl, Bool.not_false, Bool.and_true] at this
  | getUnloaded => exact h.quiet rfl rfl rfl rfl rfl nofun trivial
  | get => exact h.quiet rfl rfl rfl rfl rfl nofun trivial
  | getEmpty => exact h.quiet rfl rfl rfl rfl rfl nofun trivial
  | getLoad hn => exact h.quiet rfl rfl rfl rfl rfl nofun ⟨rfl, h.slot_fetched _ _ hn⟩
  | getDead => exact h.quiet rfl rfl rfl rfl rfl nofun trivial
  | getRefs hpos => exact h.quiet rfl rfl rfl rfl rfl nofun ⟨hknown.1, hknown.2, hpos⟩
  | getLost => exact h.quiet rfl rfl rfl rfl rfl nofun ⟨hknown.1, hknown.2.1⟩
  | getSwapped hn => exact h.getSwapped hn
  | getRetired => exact h.quiet rfl rfl rfl rfl rfl nofun trivial
  | getAgain => exact h.quiet rfl rfl rfl rfl rfl nofun trivial
  | release => exact h.quiet rfl rfl rfl rfl rfl nofun trivial
  | drop hmore => exact h.dropped.1 hmore
  | dropLast hlast => exact h.dropped.2 hlast
  | close => exact h.closed
  | tickDone => exact h.tickDone
  | tick => exact h.quiet rfl rfl rfl rfl rfl nofun hknown
  | refetchFails => exact h.quiet rfl rfl rfl rfl rfl nofun hknown
  | refetch => exact h.fetched _ rfl rfl rfl rfl rfl rfl nofun ⟨rfl, hknown⟩
  | swap hn => exact h.swapped hn
  | @swapEmpty name v hn =>
    have hwg : 0 < sh.wg := by
      rw [h.wg, List.countP_cons]
      exact Nat.succ_pos _
    obtain ⟨n, hn'⟩ := h.slot_of_live (h.refreshing hwg name hknown.2.1)
    rw [hn] at hn'
    cases hn'

theorem init (m : Manager) : ManagerInv m {} [] where
  ledger := ⟨fun _ h => absurd h (Nat.not_lt_zero _), by simp, by simp, fun _ h => absurd h (Nat.not_lt_zero _)⟩
  live_nodup := List.nodup_nil
  owned_slot := by simp
  slot_fetched := by simp
  locked := rfl
  keepers := Nat.zero_le _
  kept := List.Perm.refl _
  wg := rfl
  retired := nofun
  refreshing := nofun
  knows := by simp
  givenUp := by simp

/-- A new call that has not done anything yet. -/
theorem spawn (h : ManagerInv m sh ts) (href : t.reference? = none) (hclose : t.closing? = none)
    (hlocks : t.locks = false) (hkeeps : t.keeps m = none) (hrefreshes : t.refreshes = false)
    (hknows : t.Knows m sh) : ManagerInv m sh (t :: ts) := by
  refine ⟨?_, h.live_nodup, h.owned_slot, h.slot_fetched, ?_, ?_, ?_, ?_, h.retired, h.refreshing, fun x hx => ?_,
    fun name n hn hl hr hf => ?_⟩
  · rw [List.filterMap_cons_none href, List.filterMap_cons_none hclose]
    exact h.ledger
  · rw [List.countP_cons, hlocks]
    exact h.locked
  · rw [List.filterMap_cons_none hkeeps]
    exact h.keepers
  · rw [List.filterMap_cons_none hkeeps]
    exact h.kept
  · rw [List.countP_cons, hrefreshes]
    exact h.wg
  · rcases List.mem_cons.mp hx with rfl | hx
    · exact hknows
    · exact h.knows x hx
  · obtain ⟨x, hx, hgives⟩ := h.givenUp name n hn hl hr hf
    exact ⟨x, List.mem_cons_of_mem _ hx, hgives⟩

theorem managerStep {s s' : ManagerState} {actor : Option Thread} {ev : Option Got}
    (h : ManagerInv m s.shared s.threads) (hstep : ManagerStep m s actor ev s') : ManagerInv m s'.shared s'.threads := by
  cases hstep with
  | @run pre t post sh _ sh' new ht =>
    have hnew := (h.perm List.perm_middle.symm).step ht
    refine hnew.perm ?_
    rw [← List.append_assoc]
    exact List.perm_append_comm.append_right post
  | start => exact h.spawn rfl rfl rfl rfl rfl trivial
  | stop => exact h.spawn rfl rfl rfl rfl rfl trivial
  | get => exact h.spawn rfl rfl rfl rfl rfl trivial
  | expire =>
    exact ⟨h.ledger, h.live_nodup, h.owned_slot, h.slot_fetched, h.locked, h.keepers, h.kept, h.wg, h.retired,
      h.refreshing, fun t ht => (h.knows t ht).mono (fun _ => Nat.le_refl _) id id (fun _ => ⟨rfl, rfl⟩) fun _ hw => hw,
      h.givenUp⟩

theorem reachable {s : ManagerState} (hr : ManagerReachable m s) : ManagerInv m s.shared s.threads := by
  induction hr with
  | refl => exact init m
  | tail _ hstep ih =>
    obtain ⟨actor, ev, hstep⟩ := hstep
    exact ih.managerStep hstep

end ManagerInv

end Pineapple.GoResource
