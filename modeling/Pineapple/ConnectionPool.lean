import Pineapple.LuaPool
import Mathlib.Logic.Function.Basic
import Mathlib.Algebra.BigOperators.Group.List.Lemmas

/-! # The pool of Redis connections (`connection_pool.hpp`, `connection_pool.cpp`)

The handles are objects of their threads; a call in progress holds the handles it works on. What the mutex protects is
one step, the counter has steps of its own. Whether a client is still connected is open at every look. -/

namespace Pineapple.ConnectionPool

abbrev Key := String × Int × String × Int

structure IdleEntry where
  client : Nat
  queuedAt : Int

def kIdleTimeout : Int := 60

def kMaxIdlePerKey : Nat := 16

/-- `set_max_idle_per_key`, called before the pool is used. -/
def maxIdlePerKey (cap : Nat) : Nat := if cap = 0 then kMaxIdlePerKey else cap

structure Shared where
  /-- the idle entries of a key, the newest first -/
  idle : Key → List IdleEntry := fun _ => []
  inUse : Int := 0
  next : Nat := 0
  /-- how often a client was lent, and how often `release` was called for it -/
  lent : Nat → Nat := fun _ => 0
  released : Nat → Nat := fun _ => 0

/-- `ScopedClient`: with a client it has its pool. -/
structure Handle where
  pool : Bool
  key : Key
  client : Option Nat
  pool_of_client : client ≠ none → pool = true

/-- A handle after its constructor without arguments, after a move out of it, or after `release_now`. -/
def Handle.empty (pool : Bool) (key : Key) : Handle := ⟨pool, key, none, fun h => absurd rfl h⟩

/-- What follows a `release`. -/
inductive After
  | destroy
  | assign (src : Handle)

/-- A handle, or a call in progress. -/
inductive Item
  | handle (h : Handle)
  | acquire (key : Key)
  | popped (key : Key) (c : Nat)
  | missed (key : Key)
  | counted (key : Key)
  | acquired (key : Key) (c : Nat)
  | releasing (key : Key) (c : Nat) (after : After)
  | returning (key : Key) (c : Nat) (after : After)

/-- The loop of `acquire` over the idle entries. -/
def takeIdle (now : Int) (connected : Nat → Bool) : List IdleEntry → Option Nat × List IdleEntry
  | [] => (none, [])
  | e :: es => if now - e.queuedAt ≤ kIdleTimeout ∧ connected e.client then (some e.client, es) else takeIdle now connected es

/-- What is left when a `release` has returned; a moved-from key is unspecified. -/
def After.items (key : Key) : After → List Item
  | destroy => []
  | assign src => [.handle src, .handle (.empty false key)]

def Shared.lend (sh : Shared) (c : Nat) : Shared := { sh with lent := Function.update sh.lent c (sh.lent c + 1) }

inductive Item.Step (cap : Nat) : Shared → List Item → Shared → List Item → Prop
  -- `acquire`, `acquire_scoped`
  | pop {sh key now connected c rest} : takeIdle now connected (sh.idle key) = (some c, rest) →
      Step cap sh [.acquire key] ({ sh with idle := Function.update sh.idle key rest }.lend c) [.popped key c]
  | count {sh key c} : Step cap sh [.popped key c] { sh with inUse := sh.inUse + 1 } [.acquired key c]
  | miss {sh key now connected rest} : takeIdle now connected (sh.idle key) = (none, rest) →
      Step cap sh [.acquire key] { sh with idle := Function.update sh.idle key rest } [.missed key]
  | countMissed {sh key} : Step cap sh [.missed key] { sh with inUse := sh.inUse + 1 } [.counted key]
  | create {sh key} :
      Step cap sh [.counted key] ({ sh with next := sh.next + 1 }.lend sh.next) [.acquired key sh.next]
  | bind {sh key c} : Step cap sh [.acquired key c] sh [.handle ⟨true, key, some c, fun _ => rfl⟩]
  -- `ScopedClient`
  | default {sh key} : Step cap sh [] sh [.handle (.empty false key)]
  | moveConstruct {sh o key} : Step cap sh [.handle o] sh [.handle o, .handle (.empty false key)]
  | moveAssign {sh dst src c} : dst.client = some c →
      Step cap sh [.handle dst, .handle src] sh [.releasing dst.key c (.assign src)]
  | moveAssignEmpty {sh dst src key} : dst.client = none →
      Step cap sh [.handle dst, .handle src] sh [.handle src, .handle (.empty false key)]
  | selfAssign {sh o} : Step cap sh [.handle o] sh [.handle o]
  | destroy {sh o c} : o.client = some c → Step cap sh [.handle o] sh [.releasing o.key c .destroy]
  | destroyEmpty {sh o} : o.client = none → Step cap sh [.handle o] sh []
  -- `release`
  | uncount {sh key c after} : Step cap sh [.releasing key c after]
      { sh with inUse := sh.inUse - 1, released := Function.update sh.released c (sh.released c + 1) }
      [.returning key c after]
  /-- the client is not connected -/
  | discard {sh key c after key'} : Step cap sh [.returning key c after] sh (after.items key')
  | full {sh key c after key'} : maxIdlePerKey cap ≤ (sh.idle key).length →
      Step cap sh [.returning key c after] sh (after.items key')
  | queue {sh key c after key' now} : (sh.idle key).length < maxIdlePerKey cap →
      Step cap sh [.returning key c after] { sh with idle := Function.update sh.idle key (⟨c, now⟩ :: sh.idle key) }
        (after.items key')

structure PoolState where
  shared : Shared := {}
  items : List Item := []

inductive PoolStep (cap : Nat) : PoolState → PoolState → Prop
  | run {sh items xs rest sh' ys} : items.Perm (xs ++ rest) → Item.Step cap sh xs sh' ys →
      PoolStep cap ⟨sh, items⟩ ⟨sh', ys ++ rest⟩
  | acquire {sh items key} : PoolStep cap ⟨sh, items⟩ ⟨sh, .acquire key :: items⟩

def Reachable (cap : Nat) : PoolState → Prop := Relation.ReflTransGen (PoolStep cap) {}

/-! ## Who has a client -/

def Handle.clients (h : Handle) : List Nat := h.client.toList

def After.clients : After → List Nat
  | destroy => []
  | assign src => src.clients

/-- The clients that handles have or are to get, or that a `release` is to be called for. -/
def Item.lent : Item → List Nat
  | handle h => h.clients
  | acquire _ => []
  | popped _ c => [c]
  | missed _ => []
  | counted _ => []
  | acquired _ c => [c]
  | releasing _ c after => c :: after.clients
  | returning _ _ after => after.clients

/-- The clients outside the idle lists. -/
def Item.clients : Item → List Nat
  | returning _ c after => c :: after.clients
  | i => i.lent

/-- What `in_use` counts. -/
def Item.inUse : Item → Int
  | handle h => h.clients.length
  | acquire _ => 0
  | popped _ _ => 0
  | missed _ => 0
  | counted _ => 1
  | acquired _ _ => 1
  | releasing _ _ after => 1 + after.clients.length
  | returning _ _ after => after.clients.length

def held (items : List Item) (c : Nat) : Nat := (items.map fun i => i.clients.count c).sum

def out (items : List Item) (c : Nat) : Nat := (items.map fun i => i.lent.count c).sum

def idleCount (bucket : List IdleEntry) (c : Nat) : Nat := (bucket.map IdleEntry.client).count c

structure PoolState.Inv (cap : Nat) (s : PoolState) : Prop where
  once : ∀ key c, idleCount (s.shared.idle key) c + held s.items c ≤ 1
  apart : ∀ key key' c, 0 < idleCount (s.shared.idle key) c → 0 < idleCount (s.shared.idle key') c → key = key'
  made : ∀ c, s.shared.next ≤ c → held s.items c = 0 ∧ ∀ key, idleCount (s.shared.idle key) c = 0
  inUse : s.shared.inUse = (s.items.map Item.inUse).sum
  lent : ∀ c, s.shared.lent c = s.shared.released c + out s.items c
  cap : ∀ key, (s.shared.idle key).length ≤ maxIdlePerKey cap

theorem takeIdle_some {now : Int} {connected : Nat → Bool} {es rest : List IdleEntry} {c : Nat}
    (h : takeIdle now connected es = (some c, rest)) :
    rest.length ≤ es.length ∧ ∀ x, idleCount rest x + [c].count x ≤ idleCount es x := by
  induction es with
  | nil => cases h
  | cons e es ih =>
    rw [takeIdle] at h
    split at h
    · cases h
      exact ⟨by simp, fun x => by simp [idleCount, List.count_cons]⟩
    · obtain ⟨hlen, hcount⟩ := ih h
      refine ⟨by simp; omega, fun x => ?_⟩
      have := hcount x
      simp only [idleCount, List.map_cons, List.count_cons] at this ⊢
      omega

theorem takeIdle_none {now : Int} {connected : Nat → Bool} {es rest : List IdleEntry}
    (h : takeIdle now connected es = (none, rest)) : rest = [] := by
  induction es with
  | nil => cases h; rfl
  | cons e es ih =>
    rw [takeIdle] at h
    split at h
    · cases h
    · exact ih h

@[simp] theorem held_nil (c : Nat) : held [] c = 0 := rfl

@[simp] theorem held_cons (i : Item) (items : List Item) (c : Nat) :
    held (i :: items) c = i.clients.count c + held items c := by
  simp [held]

@[simp] theorem out_nil (c : Nat) : out [] c = 0 := rfl

@[simp] theorem out_cons (i : Item) (items : List Item) (c : Nat) :
    out (i :: items) c = i.lent.count c + out items c := by
  simp [out]

@[simp] theorem Handle.clients_empty (pool : Bool) (key : Key) : (Handle.empty pool key).clients = [] := rfl

@[simp] theorem Handle.clients_mk (key : Key) (c : Nat) (h : some c ≠ none → true = true) :
    (Handle.mk true key (some c) h).clients = [c] := rfl

theorem Handle.clients_some {h : Handle} {c : Nat} (hc : h.client = some c) : h.clients = [c] := by
  rw [clients, hc, Option.toList_some]

theorem Handle.clients_none {h : Handle} (hc : h.client = none) : h.clients = [] := by
  rw [clients, hc, Option.toList_none]

theorem After.held_items (after : After) (key : Key) (c : Nat) : held (after.items key) c = after.clients.count c := by
  cases after <;> simp [items, clients, Item.clients, Item.lent]

theorem After.out_items (after : After) (key : Key) (c : Nat) : out (after.items key) c = after.clients.count c := by
  cases after <;> simp [items, clients, Item.lent]

theorem After.inUse_items (after : After) (key : Key) :
    ((after.items key).map Item.inUse).sum = after.clients.length := by
  cases after <;> simp [items, clients, Item.inUse]

variable {cap : Nat} {sh sh' : Shared} {xs ys : List Item}

/-- Where a step moves a client: within one idle list and the items, or it is a new one. -/
theorem Item.Step.places (h : Item.Step cap sh xs sh' ys) (c : Nat) :
    (∃ key, (∀ key', key' ≠ key → sh'.idle key' = sh.idle key') ∧ sh.next ≤ sh'.next ∧
        idleCount (sh'.idle key) c + held ys c ≤ idleCount (sh.idle key) c + held xs c) ∨
      c = sh.next ∧ sh'.next = sh.next + 1 ∧ sh'.idle = sh.idle ∧ held xs c = 0 ∧ held ys c = 1 := by
  have hsame : sh'.idle = sh.idle → sh.next ≤ sh'.next → held ys c ≤ held xs c →
      ∃ key, (∀ key', key' ≠ key → sh'.idle key' = sh.idle key') ∧ sh.next ≤ sh'.next ∧
        idleCount (sh'.idle key) c + held ys c ≤ idleCount (sh.idle key) c + held xs c := fun hidle hnext hheld =>
    ⟨("", 0, "", 0), fun _ _ => by rw [hidle], hnext, by rw [hidle]; omega⟩
  cases h with
  | @pop key _ _ x rest htake =>
    refine .inl ⟨key, fun key' hne => Function.update_of_ne hne .., Nat.le_refl _, ?_⟩
    have hcount := (takeIdle_some htake).2 c
    simpa [Shared.lend, clients, lent] using hcount
  | @miss key _ _ rest htake =>
    refine .inl ⟨key, fun key' hne => Function.update_of_ne hne .., Nat.le_refl _, ?_⟩
    simp [takeIdle_none htake, idleCount, clients, lent]
  | @create key =>
    by_cases hc : c = sh.next
    · exact .inr ⟨hc, rfl, rfl, by simp [clients, lent], by simp [clients, lent, hc]⟩
    · exact .inl (hsame rfl (Nat.le_succ _) (by simp [clients, lent, Ne.symm hc]))
  | @queue key x after key' now =>
    refine .inl ⟨key, fun key' hne => Function.update_of_ne hne .., Nat.le_refl _, ?_⟩
    simp only [Function.update_self, idleCount, List.map_cons, List.count_cons, held_cons, held_nil, clients,
      After.held_items]
    omega
  | discard | full => exact .inl (hsame rfl (Nat.le_refl _) (by simp [After.held_items, clients, List.count_cons]))
  | moveAssign hdst =>
    refine .inl (hsame rfl (Nat.le_refl _) ?_)
    simp only [held_cons, held_nil, clients, lent, After.clients, Handle.clients_some hdst, List.count_cons,
      List.count_nil]
    omega
  | moveAssignEmpty hdst => exact .inl (hsame rfl (Nat.le_refl _) (by simp [clients, lent]))
  | destroy hclient =>
    exact .inl (hsame rfl (Nat.le_refl _) (by simp [clients, lent, After.clients, Handle.clients_some hclient]))
  | _ => exact .inl (hsame rfl (Nat.le_refl _) (by simp [clients, lent]))

theorem Item.Step.inUse (h : Item.Step cap sh xs sh' ys) :
    sh'.inUse + (xs.map Item.inUse).sum = sh.inUse + (ys.map Item.inUse).sum := by
  cases h with
  | moveAssign hdst => simp [Item.inUse, After.clients, Handle.clients_some hdst]
  | moveAssignEmpty hdst => simp [Item.inUse, Handle.clients_none hdst]
  | destroy hclient => simp [Item.inUse, After.clients, Handle.clients_some hclient]
  | destroyEmpty hclient => simp [Item.inUse, Handle.clients_none hclient]
  | uncount => simp [Item.inUse]; omega
  | _ => simp [Item.inUse, After.inUse_items, Shared.lend]

theorem Item.Step.lent (h : Item.Step cap sh xs sh' ys) (c : Nat) :
    sh'.lent c + sh.released c + out xs c = sh.lent c + sh'.released c + out ys c := by
  cases h with
  | pop | create =>
    simp only [Shared.lend, Function.update_apply, out_cons, out_nil, Item.lent, List.count_nil, List.count_singleton]
    split <;> simp_all <;> omega
  | uncount =>
    simp only [Function.update_apply, out_cons, out_nil, Item.lent, List.count_cons]
    split <;> simp_all <;> omega
  | moveAssign hdst =>
    simp only [out_cons, out_nil, Item.lent, After.clients, Handle.clients_some hdst, List.count_cons, List.count_nil]
    omega
  | moveAssignEmpty hdst => simp [Item.lent, Handle.clients_none hdst]
  | destroy hclient => simp [Item.lent, After.clients, Handle.clients_some hclient]
  | destroyEmpty hclient => simp [Item.lent, Handle.clients_none hclient]
  | _ => simp [Item.lent, After.out_items]

theorem Item.Step.idle_le (h : Item.Step cap sh xs sh' ys) (hcap : ∀ key, (sh.idle key).length ≤ maxIdlePerKey cap)
    (key : Key) : (sh'.idle key).length ≤ maxIdlePerKey cap := by
  cases h with
  | @pop key₀ _ _ _ _ htake =>
    simp only [Shared.lend, Function.update_apply]
    split
    · exact (takeIdle_some htake).1.trans (hcap key₀)
    · exact hcap key
  | miss htake =>
    simp only [Function.update_apply, takeIdle_none htake]
    split
    · exact Nat.zero_le _
    · exact hcap key
  | queue hroom =>
    simp only [Function.update_apply]
    split
    · exact hroom
    · exact hcap key
  | _ => exact hcap key

theorem inv_init (cap : Nat) : PoolState.Inv cap {} where
  once _ _ := Nat.zero_le _
  apart _ _ _ h := absurd h (Nat.lt_irrefl _)
  made _ _ := ⟨rfl, fun _ => rfl⟩
  inUse := rfl
  lent _ := rfl
  cap _ := Nat.zero_le _

theorem held_append (xs ys : List Item) (c : Nat) : held (xs ++ ys) c = held xs c + held ys c := by simp [held]

theorem out_append (xs ys : List Item) (c : Nat) : out (xs ++ ys) c = out xs c + out ys c := by simp [out]

theorem PoolState.Inv.perm {items items' : List Item} (h : PoolState.Inv cap ⟨sh, items⟩) (hp : items.Perm items') :
    PoolState.Inv cap ⟨sh, items'⟩ := by
  have hheld : ∀ c, held items' c = held items c := fun c => (hp.map _).sum_eq.symm
  have hout : ∀ c, out items' c = out items c := fun c => (hp.map _).sum_eq.symm
  refine ⟨fun key c => ?_, h.apart, fun c hc => ?_, ?_, fun c => ?_, h.cap⟩
  · rw [hheld]
    exact h.once key c
  · rw [hheld]
    exact h.made c hc
  · exact h.inUse.trans (hp.map _).sum_eq
  · rw [hout]
    exact h.lent c

theorem PoolState.Inv.run {rest : List Item} (h : PoolState.Inv cap ⟨sh, xs ++ rest⟩)
    (hstep : Item.Step cap sh xs sh' ys) : PoolState.Inv cap ⟨sh', ys ++ rest⟩ := by
  have honce : ∀ key c, idleCount (sh.idle key) c + (held xs c + held rest c) ≤ 1 := fun key c => by
    rw [← held_append]
    exact h.once key c
  have hmade : ∀ c, sh.next ≤ c → held xs c + held rest c = 0 ∧ ∀ key, idleCount (sh.idle key) c = 0 := fun c hc => by
    rw [← held_append]
    exact h.made c hc
  have hapart : ∀ key key' c, key ≠ key' → idleCount (sh.idle key) c = 0 ∨ idleCount (sh.idle key') c = 0 :=
    fun key key' c hne => by
      by_contra hboth
      exact hne (h.apart key key' c (by simp only; omega) (by simp only; omega))
  refine ⟨fun key' c => ?_, fun k k' c hk hk' => ?_, fun c hc => ?_, ?_, fun c => ?_, hstep.idle_le h.cap⟩
  · rw [held_append]
    rcases hstep.places c with ⟨key, hother, _, hplace⟩ | ⟨rfl, _, hidle, hxs, hys⟩
    · have h1 := honce key c
      have h2 := honce key' c
      by_cases hkey : key' = key
      · subst hkey
        simp only
        omega
      · have := hapart key' key c hkey
        simp only [hother key' hkey]
        omega
    · have := hmade sh.next (Nat.le_refl _)
      simp only [hidle, this.2]
      omega
  · by_contra hne
    rcases hstep.places c with ⟨key, hother, _, hplace⟩ | ⟨rfl, _, hidle, _⟩
    · have h1 := honce k c
      have h2 := honce k' c
      have h3 := hapart k k' c hne
      simp only at hk hk'
      by_cases hkk : k = key
      · rw [hother k' (hkk ▸ Ne.symm hne)] at hk'
        subst hkk
        omega
      · rw [hother k hkk] at hk
        by_cases hkk' : k' = key
        · subst hkk'
          omega
        · rw [hother k' hkk'] at hk'
          omega
    · have := (hmade sh.next (Nat.le_refl _)).2 k
      simp only [hidle] at hk
      omega
  · rw [held_append]
    rcases hstep.places c with ⟨key, hother, hnext, hplace⟩ | ⟨rfl, hnext, _⟩
    · obtain ⟨hheld, hidle⟩ := hmade c (Nat.le_trans hnext hc)
      have := hidle key
      refine ⟨by omega, fun key' => ?_⟩
      by_cases hkey : key' = key
      · subst hkey
        simp only
        omega
      · simp only [hother key' hkey, hidle]
    · simp only [hnext] at hc
      omega
  · have hs := hstep.inUse
    have hi := h.inUse
    simp only [List.map_append, List.sum_append] at hi ⊢
    omega
  · have hs := hstep.lent c
    have hl := h.lent c
    rw [out_append] at hl ⊢
    simp only at hl ⊢
    omega

theorem Reachable.inv {s : PoolState} (h : Reachable cap s) : s.Inv cap := by
  induction h with
  | refl => exact inv_init cap
  | tail _ hstep ih =>
    cases hstep with
    | run hperm hrun => exact (ih.perm hperm).run hrun
    | acquire =>
      refine ⟨fun key c => ?_, ih.apart, fun c hc => ?_, ?_, fun c => ?_, ih.cap⟩
      · simpa [Item.clients, Item.lent] using ih.once key c
      · simpa [Item.clients, Item.lent] using ih.made c hc
      · simpa [Item.inUse] using ih.inUse
      · simpa [Item.lent] using ih.lent c

/-! ## Accounting -/

/-- No acquire and no release is in progress. -/
def PoolState.Quiet (s : PoolState) : Prop := ∀ i ∈ s.items, ∃ h, i = .handle h

def PoolState.handles (s : PoolState) : List Handle := s.items.filterMap fun
  | .handle h => some h
  | _ => none

structure PoolState.Accounts (cap : Nat) (s : PoolState) : Prop where
  /-- No client is lent to two handles. -/
  lent_once : (s.handles.flatMap Handle.clients).Nodup
  /-- A client that a handle has is in no idle list. -/
  disjoint : ∀ c ∈ s.handles.flatMap Handle.clients, ∀ key, ∀ e ∈ s.shared.idle key, e.client ≠ c
  cap : ∀ key, (s.shared.idle key).length ≤ maxIdlePerKey cap
  /-- `release` was called once for each time a client was lent, but for the client that is with a handle or a call. -/
  released : ∀ c, s.shared.lent c = s.shared.released c + out s.items c ∧ out s.items c ≤ 1
  quiet : s.Quiet → s.shared.inUse = (s.handles.filter (·.client ≠ none)).length ∧
    ∀ c, s.shared.lent c = s.shared.released c + (s.handles.flatMap Handle.clients).count c

theorem count_handles (items : List Item) (c : Nat) :
    ((PoolState.mk sh items).handles.flatMap Handle.clients).count c ≤ out items c := by
  induction items with
  | nil => exact Nat.le_refl _
  | cons i items ih =>
    simp only [PoolState.handles, List.filterMap_cons, out_cons] at ih ⊢
    cases i with
    | handle h =>
      simp only [List.flatMap_cons, List.count_append, Item.lent]
      omega
    | _ =>
      simp only
      omega

theorem out_le_held (items : List Item) (c : Nat) : out items c ≤ held items c := by
  induction items with
  | nil => exact Nat.le_refl _
  | cons i items ih =>
    rw [out_cons, held_cons]
    cases i with
    | returning key x after =>
      simp only [Item.lent, Item.clients, List.count_cons]
      omega
    | _ =>
      simp only [Item.clients]
      omega

theorem quiet_sums {items : List Item} (h : ∀ i ∈ items, ∃ x, i = .handle x) :
    (items.map Item.inUse).sum = ((PoolState.mk sh items).handles.filter (·.client ≠ none)).length ∧
      ∀ c, out items c = ((PoolState.mk sh items).handles.flatMap Handle.clients).count c := by
  induction items with
  | nil => exact ⟨rfl, fun _ => rfl⟩
  | cons i items ih =>
    obtain ⟨x, rfl⟩ := h i List.mem_cons_self
    obtain ⟨hsum, hout⟩ := ih fun j hj => h j (List.mem_cons_of_mem _ hj)
    simp only [PoolState.handles, List.filterMap_cons, List.map_cons, List.sum_cons, List.filter_cons] at hsum hout ⊢
    refine ⟨?_, fun c => ?_⟩
    · rw [hsum]
      cases hx : x.client with
      | none => simp [Item.inUse, Handle.clients_none hx]
      | some c => simp [Item.inUse, Handle.clients_some hx]; omega
    · rw [out_cons, hout, List.flatMap_cons, List.count_append]
      rfl

theorem PoolState.Inv.accounts {s : PoolState} (h : s.Inv cap) : s.Accounts cap := by
  have hle : ∀ c, out s.items c ≤ 1 := fun c => by
    have honce := h.once ("", 0, "", 0) c
    have := out_le_held s.items c
    omega
  refine ⟨?_, fun c hc key e he hec => ?_, h.cap, fun c => ⟨h.lent c, hle c⟩, fun hq => ?_⟩
  · exact List.nodup_iff_count_le_one.mpr fun c => (@count_handles s.shared s.items c).trans (hle c)
  · have honce := h.once key c
    have hpos : 0 < (s.handles.flatMap Handle.clients).count c := List.count_pos_iff.mpr hc
    have hidle : 0 < idleCount (s.shared.idle key) c :=
      List.count_pos_iff.mpr (List.mem_map.mpr ⟨e, he, hec⟩)
    have h1 := @count_handles s.shared s.items c
    have h2 := out_le_held s.items c
    have h3 : (s.handles.flatMap Handle.clients).count c ≤ out s.items c := h1
    omega
  · obtain ⟨hsum, hout⟩ := @quiet_sums s.shared s.items hq
    refine ⟨h.inUse.trans hsum, fun c => ?_⟩
    rw [h.lent c, hout]

end Pineapple.ConnectionPool

namespace Pineapple

/-- The accounts of both pools hold in every state that any number of borrowers reach. -/
theorem pools_account :
    (∀ s, LuaPool.Reachable s → s.Accounts) ∧
      ∀ cap s, ConnectionPool.Reachable cap s → ConnectionPool.PoolState.Accounts cap s :=
  ⟨fun _ h => h.inv.accounts, fun _ _ h => h.inv.accounts⟩

theorem pools_account_borrowed :
    LuaPool.PoolState.Accounts ⟨{ free := [], reuseCount := 1 }, [.capture 0]⟩ ∧
      ConnectionPool.PoolState.Accounts 0 ⟨{}, [.missed ("localhost", 6379, "", 0)]⟩ := by
  refine ⟨pools_account.1 _ ?_, pools_account.2 0 _ ?_⟩
  · exact (Relation.ReflTransGen.single ⟨_, .borrow⟩).tail
      ⟨_, @LuaPool.PoolStep.run [] .acquire [] _ _ _ _ (@LuaPool.Thread.Step.reuse _ [] 0 rfl rfl)⟩
  · have hstep := @ConnectionPool.PoolStep.run 0 {} _ _ [] _ _ (.refl _)
      (@ConnectionPool.Item.Step.miss 0 {} ("localhost", 6379, "", 0) 0 (fun _ => true) [] rfl)
    rw [Function.update_eq_self] at hstep
    exact (Relation.ReflTransGen.single .acquire).tail hstep

end Pineapple
