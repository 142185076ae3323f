import Mathlib.Data.List.Count
import Mathlib.Logic.Relation
import Pineapple.Lib.RwLock

/-! # The reader-writer mutex (`shared_mutex.hpp`)

Readers count themselves with one unconditional increment. A writer announces itself by taking `2 ^ 30` off the
count, waits until the readers counted before have left, and on leaving posts a token for each reader that queued
behind it. The threads are at their program points; a step is one atomic or semaphore operation of one of them. -/

namespace Pineapple.SharedMutex

def kMaxReaders : Int := 1073741824

/-- Where a thread is. -/
inductive Pc
  | idle
  /-- counted behind an announced writer, at `reader_sem_.acquire()` -/
  | readQueued
  | reading
  /-- in the loop of `try_lock_shared` with the count it read -/
  | tryRead (s : Int)
  /-- no longer counted, at `reader_wait_.fetch_sub(1)` -/
  | readLeft
  /-- the last reader out, at `writer_sem_.release()` -/
  | readPost
  /-- at `writer_mu_.lock()` -/
  | writeQueued
  /-- at `reader_count_.fetch_sub(kMaxReaders)` -/
  | writeAnnounce
  /-- announced over `r` readers, at `reader_wait_.fetch_add(r)` -/
  | writeSettle (r : Int)
  /-- at `writer_sem_.acquire()` -/
  | writeWait
  | writing
  /-- has `writer_mu_` in `try_lock`, at the exchange -/
  | tryWrite
  | giveUp
  /-- at `reader_sem_.release(r)` -/
  | writeRelease (r : Int)
  | writeUnlock
  deriving DecidableEq

structure Shared where
  readerCount : Int := 0
  readerWait : Int := 0
  writerMu : Bool := false
  readerSem : Nat := 0
  writerSem : Nat := 0

/-- One operation of one thread. -/
inductive Local : Shared → Pc → Shared → Pc → Prop
  | lockShared {sh} : Local sh .idle { sh with readerCount := sh.readerCount + 1 }
      (if sh.readerCount < 0 then .readQueued else .reading)
  | acquireShared {sh n} : sh.readerSem = n + 1 → Local sh .readQueued { sh with readerSem := n } .reading
  | tryLockShared {sh} : Local sh .idle sh (.tryRead sh.readerCount)
  | tryReadFails {sh s} : s < 0 → Local sh (.tryRead s) sh .idle
  | tryReadTakes {sh s} : 0 ≤ s → sh.readerCount = s →
      Local sh (.tryRead s) { sh with readerCount := s + 1 } .reading
  /-- the weak exchange may fail for no reason -/
  | tryReadAgain {sh s} : 0 ≤ s → Local sh (.tryRead s) sh (.tryRead sh.readerCount)
  | unlockShared {sh} : Local sh .reading { sh with readerCount := sh.readerCount - 1 }
      (if sh.readerCount < 0 then .readLeft else .idle)
  | settleShared {sh} : Local sh .readLeft { sh with readerWait := sh.readerWait - 1 }
      (if sh.readerWait = 1 then .readPost else .idle)
  | post {sh} : Local sh .readPost { sh with writerSem := sh.writerSem + 1 } .idle
  | lock {sh} : Local sh .idle sh .writeQueued
  | lockMu {sh} : sh.writerMu = false → Local sh .writeQueued { sh with writerMu := true } .writeAnnounce
  | announce {sh} : Local sh .writeAnnounce { sh with readerCount := sh.readerCount - kMaxReaders }
      (if sh.readerCount ≠ 0 then .writeSettle sh.readerCount else .writing)
  | settle {sh r} : Local sh (.writeSettle r) { sh with readerWait := sh.readerWait + r }
      (if sh.readerWait + r ≠ 0 then .writeWait else .writing)
  | acquire {sh n} : sh.writerSem = n + 1 → Local sh .writeWait { sh with writerSem := n } .writing
  | tryLock {sh} : sh.writerMu = false → Local sh .idle { sh with writerMu := true } .tryWrite
  | tryLockFails {sh} : Local sh .idle sh .idle
  | tryAnnounce {sh} : sh.readerCount = 0 → Local sh .tryWrite { sh with readerCount := -kMaxReaders } .writing
  | tryAnnounceFails {sh} : sh.readerCount ≠ 0 → Local sh .tryWrite sh .giveUp
  | giveUp {sh} : Local sh .giveUp { sh with writerMu := false } .idle
  | unlock {sh} : Local sh .writing { sh with readerCount := sh.readerCount + kMaxReaders }
      (if 0 < sh.readerCount + kMaxReaders then .writeRelease (sh.readerCount + kMaxReaders) else .writeUnlock)
  | release {sh r} : Local sh (.writeRelease r) { sh with readerSem := sh.readerSem + r.toNat } .writeUnlock
  | unlockMu {sh} : Local sh .writeUnlock { sh with writerMu := false } .idle

namespace Pc

/-- Inside for reading, or queued for it. -/
def enrolled : Pc → Bool
  | reading | readQueued => true
  | _ => false

def isReading : Pc → Bool
  | reading => true
  | _ => false

def isQueued : Pc → Bool
  | readQueued => true
  | _ => false

def isLeft : Pc → Bool
  | readLeft => true
  | _ => false

def isPost : Pc → Bool
  | readPost => true
  | _ => false

def isWriting : Pc → Bool
  | writing => true
  | _ => false

/-- Between the announcement of a writer and its withdrawal. -/
def announced : Pc → Bool
  | writeSettle _ | writeWait | writing => true
  | _ => false

def holdsMu : Pc → Bool
  | writeAnnounce | writeSettle _ | writeWait | writing | tryWrite | giveUp | writeRelease _ | writeUnlock => true
  | _ => false

end Pc

structure State where
  shared : Shared := {}
  threads : List Pc

namespace State

/-- The readers that are inside or queued. -/
def enrolled (s : State) : Nat := s.threads.countP Pc.enrolled

end State

/-- One thread steps, and there are fewer than `2 ^ 30` readers at once. -/
inductive Step : State → State → Prop
  | mk {sh sh' pc pc' l₁ l₂} : Local sh pc sh' pc' →
      ((State.enrolled ⟨sh', l₁ ++ pc' :: l₂⟩ : Nat) : Int) < kMaxReaders →
      Step ⟨sh, l₁ ++ pc :: l₂⟩ ⟨sh', l₁ ++ pc' :: l₂⟩

/-- The states of any number of threads, none of which has called yet. -/
def Reachable (s : State) : Prop := ∃ n, Relation.ReflTransGen Step { threads := List.replicate n .idle } s

/-! ## What the counters stand for -/

/-- How many threads the counters stand for. -/
structure Census where
  inside : Nat
  queued : Nat
  left : Nat
  posting : Nat

def census (threads : List Pc) : Census where
  inside := threads.countP Pc.isReading
  queued := threads.countP Pc.isQueued
  left := threads.countP Pc.isLeft
  posting := threads.countP Pc.isPost

/-- How far the thread that has `writer_mu_` is, where the readers notice. -/
inductive Phase
  | quiet
  | settling (r : Int)
  | waiting
  | inside
  | releasing (r : Int)

def phase : Option Pc → Phase
  | some (.writeSettle r) => .settling r
  | some .writeWait => .waiting
  | some .writing => .inside
  | some (.writeRelease r) => .releasing r
  | _ => .quiet

/-- What an announced writer has taken off the count. -/
def withdrawn : Phase → Int
  | .settling _ | .waiting | .inside => kMaxReaders
  | _ => 0

/-- What the semaphores and `reader_wait_` hold. Before a writer is inside, the readers it has to wait for are inside,
leaving, or have a token to come in with. -/
def Balanced (sh : Shared) (c : Census) : Phase → Prop
  | .quiet => c.queued = sh.readerSem ∧ c.left = 0 ∧ c.posting = 0 ∧ sh.writerSem = 0 ∧ sh.readerWait = 0
  | .settling r => (c.inside + sh.readerSem + c.left : Nat) = r + sh.readerWait ∧ sh.readerWait ≤ 0 ∧ r < kMaxReaders ∧
      sh.readerSem ≤ c.queued ∧ c.posting = 0 ∧ sh.writerSem = 0
  | .waiting => (c.inside + sh.readerSem + c.left : Nat) = sh.readerWait ∧ sh.readerWait < kMaxReaders ∧
      sh.readerSem ≤ c.queued ∧
      (sh.readerWait = 0 ∧ c.posting + sh.writerSem = 1 ∨ sh.readerWait ≠ 0 ∧ c.posting + sh.writerSem = 0)
  | .inside => c.inside = 0 ∧ sh.readerSem = 0 ∧ c.left = 0 ∧ c.posting = 0 ∧ sh.writerSem = 0 ∧ sh.readerWait = 0
  | .releasing r => (c.queued : Int) = sh.readerSem + r ∧ 0 < r ∧ c.left = 0 ∧ c.posting = 0 ∧ sh.writerSem = 0 ∧
      sh.readerWait = 0

structure Counted (sh : Shared) (c : Census) (ph : Phase) : Prop where
  count : sh.readerCount = c.inside + c.queued - withdrawn ph
  few : (c.inside + c.queued : Int) < kMaxReaders
  balanced : Balanced sh c ph

/-- What holds between the steps; `o` has `writer_mu_`. -/
structure Inv (s : State) (o : Option Pc) : Prop where
  holder : s.threads.filter Pc.holdsMu = o.toList
  mutex : s.shared.writerMu = o.isSome
  counted : Counted s.shared (census s.threads) (phase o)

/-! ## One operation -/

namespace Counted
variable {sh : Shared} {i q l p : Nat} {ph : Phase}

/-- An announced writer, and nothing else, makes the count negative. -/
theorem negative_iff (h : Counted sh ⟨i, q, l, p⟩ ph) : sh.readerCount < 0 ↔ withdrawn ph = kMaxReaders := by
  obtain ⟨hcount, hfew, -⟩ := h
  cases ph <;> dsimp only [withdrawn, kMaxReaders] at hcount hfew ⊢ <;> omega

theorem enter (h : Counted sh ⟨i, q, l, p⟩ ph) (hfree : ¬ sh.readerCount < 0) (hfew : (i + 1 + q : Int) < kMaxReaders) :
    Counted { sh with readerCount := sh.readerCount + 1 } ⟨i + 1, q, l, p⟩ ph := by
  rw [h.negative_iff] at hfree
  obtain ⟨hcount, -, hb⟩ := h
  refine ⟨?_, ?_, ?_⟩
  · dsimp only at hcount ⊢
    omega
  · exact_mod_cast hfew
  · cases ph <;> dsimp only [Balanced, withdrawn, kMaxReaders] at hb hfree ⊢ <;> omega

theorem enqueue (h : Counted sh ⟨i, q, l, p⟩ ph) (hneg : sh.readerCount < 0) (hfew : (i + (q + 1) : Int) < kMaxReaders) :
    Counted { sh with readerCount := sh.readerCount + 1 } ⟨i, q + 1, l, p⟩ ph := by
  rw [h.negative_iff] at hneg
  obtain ⟨hcount, -, hb⟩ := h
  refine ⟨?_, ?_, ?_⟩
  · dsimp only at hcount ⊢
    omega
  · exact_mod_cast hfew
  · cases ph <;> dsimp only [Balanced, withdrawn, kMaxReaders] at hb hneg ⊢ <;> omega

theorem acquireShared {n : Nat} (h : Counted sh ⟨i, q + 1, l, p⟩ ph) (hn : sh.readerSem = n + 1) :
    Counted { sh with readerSem := n } ⟨i + 1, q, l, p⟩ ph := by
  obtain ⟨hcount, hfew, hb⟩ := h
  refine ⟨?_, ?_, ?_⟩
  · dsimp only at hcount ⊢
    omega
  · dsimp only at hfew ⊢
    omega
  · cases ph <;> dsimp only [Balanced] at hb ⊢ <;> omega

theorem leave (h : Counted sh ⟨i + 1, q, l, p⟩ ph) (hfree : ¬ sh.readerCount < 0) :
    Counted { sh with readerCount := sh.readerCount - 1 } ⟨i, q, l, p⟩ ph := by
  rw [h.negative_iff] at hfree
  obtain ⟨hcount, hfew, hb⟩ := h
  refine ⟨?_, ?_, ?_⟩
  · dsimp only at hcount ⊢
    omega
  · dsimp only at hfew ⊢
    omega
  · cases ph <;> dsimp only [Balanced, withdrawn, kMaxReaders] at hb hfree ⊢ <;> omega

theorem leaveAnnounced (h : Counted sh ⟨i + 1, q, l, p⟩ ph) (hneg : sh.readerCount < 0) :
    Counted { sh with readerCount := sh.readerCount - 1 } ⟨i, q, l + 1, p⟩ ph := by
  rw [h.negative_iff] at hneg
  obtain ⟨hcount, hfew, hb⟩ := h
  refine ⟨?_, ?_, ?_⟩
  · dsimp only at hcount ⊢
    omega
  · dsimp only at hfew ⊢
    omega
  · cases ph <;> dsimp only [Balanced, withdrawn, kMaxReaders] at hb hneg ⊢ <;> omega

theorem settleLast (h : Counted sh ⟨i, q, l + 1, p⟩ ph) (hlast : sh.readerWait = 1) :
    Counted { sh with readerWait := sh.readerWait - 1 } ⟨i, q, l, p + 1⟩ ph := by
  obtain ⟨hcount, hfew, hb⟩ := h
  refine ⟨hcount, hfew, ?_⟩
  cases ph <;> dsimp only [Balanced] at hb ⊢ <;> omega

theorem settleNotLast (h : Counted sh ⟨i, q, l + 1, p⟩ ph) (hlast : sh.readerWait ≠ 1) :
    Counted { sh with readerWait := sh.readerWait - 1 } ⟨i, q, l, p⟩ ph := by
  obtain ⟨hcount, hfew, hb⟩ := h
  refine ⟨hcount, hfew, ?_⟩
  cases ph <;> dsimp only [Balanced] at hb ⊢ <;> omega

theorem post (h : Counted sh ⟨i, q, l, p + 1⟩ ph) :
    Counted { sh with writerSem := sh.writerSem + 1 } ⟨i, q, l, p⟩ ph := by
  obtain ⟨hcount, hfew, hb⟩ := h
  refine ⟨hcount, hfew, ?_⟩
  cases ph <;> dsimp only [Balanced] at hb ⊢ <;> omega

variable {c : Census}

/-- The announcement takes stock of the readers that are inside or have a token. -/
theorem announce (h : Counted sh c .quiet) :
    Counted { sh with readerCount := sh.readerCount - kMaxReaders } c (.settling sh.readerCount) := by
  obtain ⟨hcount, hfew, hb⟩ := h
  dsimp only [Balanced, withdrawn] at hb hcount
  refine ⟨?_, hfew, ?_⟩
  · dsimp only [withdrawn]
    omega
  · dsimp only [Balanced]
    omega

theorem announceAlone (h : Counted sh c .quiet) (hnone : sh.readerCount = 0) :
    Counted { sh with readerCount := sh.readerCount - kMaxReaders } c .inside := by
  obtain ⟨hcount, hfew, hb⟩ := h
  dsimp only [Balanced, withdrawn] at hb hcount
  refine ⟨?_, hfew, ?_⟩
  · dsimp only [withdrawn]
    omega
  · dsimp only [Balanced]
    omega

theorem settle {r : Int} (h : Counted sh c (.settling r)) (hsome : sh.readerWait + r ≠ 0) :
    Counted { sh with readerWait := sh.readerWait + r } c .waiting := by
  obtain ⟨hcount, hfew, hb⟩ := h
  dsimp only [Balanced] at hb
  refine ⟨hcount, hfew, ?_⟩
  dsimp only [Balanced]
  omega

theorem settleAlone {r : Int} (h : Counted sh c (.settling r)) (hnone : sh.readerWait + r = 0) :
    Counted { sh with readerWait := sh.readerWait + r } c .inside := by
  obtain ⟨hcount, hfew, hb⟩ := h
  dsimp only [Balanced] at hb
  refine ⟨hcount, hfew, ?_⟩
  dsimp only [Balanced]
  omega

theorem acquire {n : Nat} (h : Counted sh c .waiting) (hn : sh.writerSem = n + 1) :
    Counted { sh with writerSem := n } c .inside := by
  obtain ⟨hcount, hfew, hb⟩ := h
  dsimp only [Balanced] at hb
  refine ⟨hcount, hfew, ?_⟩
  dsimp only [Balanced]
  omega

theorem unlock (h : Counted sh c .inside) (hsome : 0 < sh.readerCount + kMaxReaders) :
    Counted { sh with readerCount := sh.readerCount + kMaxReaders } c (.releasing (sh.readerCount + kMaxReaders)) := by
  obtain ⟨hcount, hfew, hb⟩ := h
  dsimp only [Balanced, withdrawn] at hb hcount
  refine ⟨?_, hfew, ?_⟩
  · dsimp only [withdrawn]
    omega
  · dsimp only [Balanced]
    omega

theorem unlockAlone (h : Counted sh c .inside) (hnone : ¬ 0 < sh.readerCount + kMaxReaders) :
    Counted { sh with readerCount := sh.readerCount + kMaxReaders } c .quiet := by
  obtain ⟨hcount, hfew, hb⟩ := h
  dsimp only [Balanced, withdrawn] at hb hcount
  refine ⟨?_, hfew, ?_⟩
  · dsimp only [withdrawn]
    omega
  · dsimp only [Balanced]
    omega

theorem release {r : Int} (h : Counted sh c (.releasing r)) :
    Counted { sh with readerSem := sh.readerSem + r.toNat } c .quiet := by
  obtain ⟨hcount, hfew, hb⟩ := h
  dsimp only [Balanced] at hb
  refine ⟨hcount, hfew, ?_⟩
  dsimp only [Balanced]
  omega

theorem withMutex (h : Counted sh c ph) (b : Bool) : Counted { sh with writerMu := b } c ph := by
  obtain ⟨hcount, hfew, hb⟩ := h
  exact ⟨hcount, hfew, by cases ph <;> exact hb⟩

end Counted

/-! ## One step -/

namespace Census

/-- A census with one thread more. -/
def plus (c : Census) : Pc → Census
  | .reading => { c with inside := c.inside + 1 }
  | .readQueued => { c with queued := c.queued + 1 }
  | .readLeft => { c with left := c.left + 1 }
  | .readPost => { c with posting := c.posting + 1 }
  | _ => c

end Census

theorem census_cons (pc : Pc) (rest : List Pc) : census (pc :: rest) = (census rest).plus pc := by
  unfold census
  simp only [List.countP_cons]
  cases pc <;> rfl

theorem census_perm {l l' : List Pc} (h : l.Perm l') : census l = census l' := by
  unfold census
  simp only [h.countP_eq]

theorem enrolled_eq (l : List Pc) : l.countP Pc.enrolled = (census l).inside + (census l).queued := by
  induction l with
  | nil => rfl
  | cons pc l ih =>
    rw [census_cons, List.countP_cons, ih]
    cases pc with
    | reading => exact (Nat.succ_add _ _).symm
    | readQueued => rfl
    | _ => rfl

theorem Inv.perm {sh : Shared} {l l' : List Pc} {o : Option Pc} (h : Inv ⟨sh, l⟩ o) (hp : l.Perm l') : Inv ⟨sh, l'⟩ o where
  holder := by
    have hfilter := (hp.filter Pc.holdsMu).symm
    have hl : l.filter Pc.holdsMu = o.toList := h.holder
    rw [hl] at hfilter
    cases o with
    | none => exact List.perm_nil.mp hfilter
    | some pc => exact List.perm_singleton.mp hfilter
  mutex := h.mutex
  counted := census_perm hp ▸ h.counted

section Threads
variable {sh sh' : Shared} {pc pc' : Pc} {rest : List Pc} {o : Option Pc}

theorem Inv.counted_cons (h : Inv ⟨sh, pc :: rest⟩ o) : Counted sh ((census rest).plus pc) (phase o) :=
  census_cons pc rest ▸ h.counted

/-- A thread without the writers' mutex takes a step that does not take it. -/
theorem Inv.reader (h : Inv ⟨sh, pc :: rest⟩ o) (hpc : pc.holdsMu = false) (hpc' : pc'.holdsMu = false)
    (hmu : sh'.writerMu = sh.writerMu) (hc : Counted sh' ((census rest).plus pc') (phase o)) :
    Inv ⟨sh', pc' :: rest⟩ o where
  holder := by
    have hrest : (pc :: rest).filter Pc.holdsMu = o.toList := h.holder
    rw [List.filter_cons_of_neg (by rw [hpc]; exact Bool.false_ne_true)] at hrest
    show (pc' :: rest).filter Pc.holdsMu = _
    rw [List.filter_cons_of_neg (by rw [hpc']; exact Bool.false_ne_true), hrest]
  mutex := hmu.trans h.mutex
  counted := (census_cons pc' rest).symm ▸ hc

/-- The thread that has the writers' mutex is the one the invariant speaks of. -/
theorem Inv.owns (h : Inv ⟨sh, pc :: rest⟩ o) (hpc : pc.holdsMu = true) :
    o = some pc ∧ rest.filter Pc.holdsMu = [] := by
  have hrest : (pc :: rest).filter Pc.holdsMu = o.toList := h.holder
  rw [List.filter_cons_of_pos hpc] at hrest
  cases o with
  | none => cases hrest
  | some pc₀ =>
    obtain ⟨rfl, hnil⟩ := List.cons.inj hrest
    exact ⟨rfl, hnil⟩

theorem Inv.writer (hrest : rest.filter Pc.holdsMu = []) (hpc' : pc'.holdsMu = true) (hmu : sh'.writerMu = true)
    (hc : Counted sh' ((census rest).plus pc') (phase (some pc'))) : Inv ⟨sh', pc' :: rest⟩ (some pc') where
  holder := by
    show (pc' :: rest).filter Pc.holdsMu = _
    rw [List.filter_cons_of_pos hpc', hrest]
    rfl
  mutex := hmu
  counted := (census_cons pc' rest).symm ▸ hc

theorem Inv.unlocked (hrest : rest.filter Pc.holdsMu = []) (hpc' : pc'.holdsMu = false) (hmu : sh'.writerMu = false)
    (hc : Counted sh' ((census rest).plus pc') .quiet) : Inv ⟨sh', pc' :: rest⟩ none where
  holder := by
    show (pc' :: rest).filter Pc.holdsMu = _
    rw [List.filter_cons_of_neg (by rw [hpc']; exact Bool.false_ne_true), hrest]
    rfl
  mutex := hmu
  counted := (census_cons pc' rest).symm ▸ hc

/-- A free mutex is nobody's. -/
theorem Inv.free (h : Inv ⟨sh, pc :: rest⟩ o) (hpc : pc.holdsMu = false) (hmu : sh.writerMu = false) :
    o = none ∧ rest.filter Pc.holdsMu = [] := by
  have hnone : o = none := by
    have := h.mutex.symm.trans hmu
    exact Option.isSome_eq_false_iff.mp this |> Option.isNone_iff_eq_none.mp
  subst hnone
  have hrest : (pc :: rest).filter Pc.holdsMu = [] := h.holder
  rw [List.filter_cons_of_neg (by rw [hpc]; exact Bool.false_ne_true)] at hrest
  exact ⟨rfl, hrest⟩

theorem Inv.step_head (h : Inv ⟨sh, pc :: rest⟩ o) (hstep : Local sh pc sh' pc')
    (hfew : (((pc' :: rest).countP Pc.enrolled : Nat) : Int) < kMaxReaders) : ∃ o', Inv ⟨sh', pc' :: rest⟩ o' := by
  have hc := h.counted_cons
  rw [enrolled_eq, census_cons] at hfew
  cases hstep with
  | lockShared =>
    by_cases hneg : sh.readerCount < 0
    · rw [if_pos hneg] at hfew ⊢
      exact ⟨o, h.reader rfl rfl rfl (hc.enqueue hneg (by exact_mod_cast hfew))⟩
    · rw [if_neg hneg] at hfew ⊢
      exact ⟨o, h.reader rfl rfl rfl (hc.enter hneg (by exact_mod_cast hfew))⟩
  | acquireShared hn => exact ⟨o, h.reader rfl rfl rfl (hc.acquireShared hn)⟩
  | tryLockShared => exact ⟨o, h.reader rfl rfl rfl hc⟩
  | tryReadFails _ => exact ⟨o, h.reader rfl rfl rfl hc⟩
  | tryReadTakes hs heq =>
    subst heq
    exact ⟨o, h.reader rfl rfl rfl (hc.enter (Int.not_lt.mpr hs) (by exact_mod_cast hfew))⟩
  | tryReadAgain _ => exact ⟨o, h.reader rfl rfl rfl hc⟩
  | unlockShared =>
    by_cases hneg : sh.readerCount < 0
    · rw [if_pos hneg]
      exact ⟨o, h.reader rfl rfl rfl (hc.leaveAnnounced hneg)⟩
    · rw [if_neg hneg]
      exact ⟨o, h.reader rfl rfl rfl (hc.leave hneg)⟩
  | settleShared =>
    by_cases hlast : sh.readerWait = 1
    · rw [if_pos hlast]
      exact ⟨o, h.reader rfl rfl rfl (hc.settleLast hlast)⟩
    · rw [if_neg hlast]
      exact ⟨o, h.reader rfl rfl rfl (hc.settleNotLast hlast)⟩
  | post => exact ⟨o, h.reader rfl rfl rfl hc.post⟩
  | lock => exact ⟨o, h.reader rfl rfl rfl hc⟩
  | lockMu hmu =>
    obtain ⟨rfl, hrest⟩ := h.free rfl hmu
    exact ⟨_, Inv.writer hrest rfl rfl (hc.withMutex true)⟩
  | announce =>
    obtain ⟨rfl, hrest⟩ := h.owns rfl
    by_cases hsome : sh.readerCount ≠ 0
    · rw [if_pos hsome]
      exact ⟨_, Inv.writer hrest rfl h.mutex hc.announce⟩
    · rw [if_neg hsome]
      exact ⟨_, Inv.writer hrest rfl h.mutex (hc.announceAlone (not_not.mp hsome))⟩
  | settle =>
    obtain ⟨rfl, hrest⟩ := h.owns rfl
    split
    · next hsome => exact ⟨_, Inv.writer hrest rfl h.mutex (hc.settle hsome)⟩
    · next hnone => exact ⟨_, Inv.writer hrest rfl h.mutex (hc.settleAlone (not_not.mp hnone))⟩
  | acquire hn =>
    obtain ⟨rfl, hrest⟩ := h.owns rfl
    exact ⟨_, Inv.writer hrest rfl h.mutex (hc.acquire hn)⟩
  | tryLock hmu =>
    obtain ⟨rfl, hrest⟩ := h.free rfl hmu
    exact ⟨_, Inv.writer hrest rfl rfl (hc.withMutex true)⟩
  | tryLockFails => exact ⟨o, h.reader rfl rfl rfl hc⟩
  | tryAnnounce hnone =>
    obtain ⟨rfl, hrest⟩ := h.owns rfl
    have halone := hc.announceAlone hnone
    rw [hnone, Int.zero_sub] at halone
    exact ⟨_, Inv.writer hrest rfl h.mutex halone⟩
  | tryAnnounceFails _ =>
    obtain ⟨rfl, hrest⟩ := h.owns rfl
    exact ⟨_, Inv.writer hrest rfl h.mutex hc⟩
  | giveUp =>
    obtain ⟨rfl, hrest⟩ := h.owns rfl
    exact ⟨_, Inv.unlocked hrest rfl rfl (hc.withMutex false)⟩
  | unlock =>
    obtain ⟨rfl, hrest⟩ := h.owns rfl
    split
    · next hsome => exact ⟨_, Inv.writer hrest rfl h.mutex (hc.unlock hsome)⟩
    · next hnone => exact ⟨_, Inv.writer hrest rfl h.mutex (hc.unlockAlone hnone)⟩
  | release =>
    obtain ⟨rfl, hrest⟩ := h.owns rfl
    exact ⟨_, Inv.writer hrest rfl h.mutex hc.release⟩
  | unlockMu =>
    obtain ⟨rfl, hrest⟩ := h.owns rfl
    exact ⟨_, Inv.unlocked hrest rfl rfl (hc.withMutex false)⟩

end Threads

theorem Inv.step {s s' : State} {o : Option Pc} (h : Inv s o) (hstep : Step s s') : ∃ o', Inv s' o' := by
  cases hstep with
  | mk hlocal hfew =>
    unfold State.enrolled at hfew
    rw [List.perm_middle.countP_eq] at hfew
    obtain ⟨o', h'⟩ := (h.perm List.perm_middle).step_head hlocal hfew
    exact ⟨o', h'.perm List.perm_middle.symm⟩

theorem Inv.init (n : Nat) : Inv { threads := List.replicate n .idle } none := by
  have hcensus : census (List.replicate n .idle) = ⟨0, 0, 0, 0⟩ := by
    induction n with
    | zero => rfl
    | succ n ih => rw [List.replicate_succ, census_cons, ih]; rfl
  refine ⟨?_, rfl, ?_⟩
  · show (List.replicate n Pc.idle).filter Pc.holdsMu = []
    exact List.filter_eq_nil_iff.mpr fun pc hpc => by rw [List.eq_of_mem_replicate hpc]; exact Bool.false_ne_true
  · show Counted {} (census (List.replicate n .idle)) .quiet
    rw [hcensus]
    exact ⟨rfl, by decide, rfl, rfl, rfl, rfl, rfl⟩

theorem Reachable.inv {s : State} (h : Reachable s) : ∃ o, Inv s o := by
  obtain ⟨n, hrun⟩ := h
  induction hrun with
  | refl => exact ⟨none, Inv.init n⟩
  | tail _ hstep ih =>
    obtain ⟨o, ho⟩ := ih
    exact ho.step hstep

/-! ## What the mutex promises -/

namespace Pc

/-- In an operation that may block. -/
def waits : Pc → Bool
  | readQueued | writeQueued | writeWait => true
  | _ => false

end Pc

/-- The thread's operation blocks. -/
def Blocked (sh : Shared) : Pc → Prop
  | .readQueued => sh.readerSem = 0
  | .writeQueued => sh.writerMu = true
  | .writeWait => sh.writerSem = 0
  | _ => False

/-- A thread that is not blocked has an operation to do. -/
theorem exists_local {sh : Shared} {pc : Pc} (h : ¬ Blocked sh pc) : ∃ sh' pc', Local sh pc sh' pc' := by
  cases pc with
  | idle => exact ⟨_, _, .lock⟩
  | readQueued =>
    obtain ⟨n, hn⟩ := Nat.exists_eq_succ_of_ne_zero (show sh.readerSem ≠ 0 from h)
    exact ⟨_, _, .acquireShared hn⟩
  | reading => exact ⟨_, _, .unlockShared⟩
  | tryRead s =>
    rcases Int.lt_or_le s 0 with hs | hs
    · exact ⟨_, _, .tryReadFails hs⟩
    · exact ⟨_, _, .tryReadAgain hs⟩
  | readLeft => exact ⟨_, _, .settleShared⟩
  | readPost => exact ⟨_, _, .post⟩
  | writeQueued => exact ⟨_, _, .lockMu (Bool.eq_false_iff.mpr h)⟩
  | writeAnnounce => exact ⟨_, _, .announce⟩
  | writeSettle r => exact ⟨_, _, .settle⟩
  | writeWait =>
    obtain ⟨n, hn⟩ := Nat.exists_eq_succ_of_ne_zero (show sh.writerSem ≠ 0 from h)
    exact ⟨_, _, .acquire hn⟩
  | writing => exact ⟨_, _, .unlock⟩
  | tryWrite =>
    by_cases hnone : sh.readerCount = 0
    · exact ⟨_, _, .tryAnnounce hnone⟩
    · exact ⟨_, _, .tryAnnounceFails hnone⟩
  | giveUp => exact ⟨_, _, .giveUp⟩
  | writeRelease r => exact ⟨_, _, .release⟩
  | writeUnlock => exact ⟨_, _, .unlockMu⟩

/-- Somebody waits, and every thread that is in a call is blocked in it; nobody is inside. -/
def Stuck (s : State) : Prop :=
  (∃ pc ∈ s.threads, pc.waits = true) ∧ ∀ pc ∈ s.threads, pc = .idle ∨ Blocked s.shared pc

def Announced (s : State) : Prop := ∃ pc ∈ s.threads, pc.announced = true

structure Safe (s : State) : Prop where
  /-- a writer is alone -/
  exclusive : s.threads.countP Pc.isWriting ≤ 1 ∧ (Pc.writing ∈ s.threads → Pc.reading ∉ s.threads)
  token : s.shared.writerSem ≤ 1 ∧ (s.shared.writerSem ≠ 0 → Pc.writeWait ∈ s.threads)
  counted : (Announced s → s.shared.readerCount = s.enrolled - kMaxReaders) ∧
    (¬ Announced s → s.shared.readerCount = s.enrolled)
  unstuck : ¬ Stuck s

namespace Inv
variable {s : State} {o : Option Pc}

theorem mem_owner (h : Inv s o) {pc : Pc} (hpc : pc.holdsMu = true) : pc ∈ s.threads ↔ o = some pc := by
  have hmem : pc ∈ s.threads.filter Pc.holdsMu ↔ pc ∈ s.threads := by
    rw [List.mem_filter]
    exact and_iff_left hpc
  rw [← hmem, h.holder, Option.mem_toList]

theorem eq_of_isWriting {pc : Pc} (h : pc.isWriting = true) : pc = .writing := by
  cases pc <;> first | rfl | cases h

theorem isReading_iff {pc : Pc} : pc.isReading = true ↔ pc = .reading := by
  cases pc <;> simp [Pc.isReading]

theorem exclusive (h : Inv s o) :
    s.threads.countP Pc.isWriting ≤ 1 ∧ (Pc.writing ∈ s.threads → Pc.reading ∉ s.threads) := by
  constructor
  · have hle : s.threads.countP Pc.isWriting ≤ (s.threads.filter Pc.holdsMu).length := by
      rw [← List.countP_eq_length_filter]
      refine List.countP_mono_left fun pc _ hpc => ?_
      rw [eq_of_isWriting hpc]
      rfl
    rw [h.holder] at hle
    cases o with
    | none => exact Nat.le_trans hle (Nat.zero_le 1)
    | some pc => exact hle
  · intro hw hr
    rw [h.mem_owner rfl] at hw
    subst hw
    have hnone : (census s.threads).inside = 0 := h.counted.balanced.1
    exact List.countP_eq_zero.mp hnone _ hr rfl

theorem token (h : Inv s o) : s.shared.writerSem ≤ 1 ∧ (s.shared.writerSem ≠ 0 → Pc.writeWait ∈ s.threads) := by
  have hb := h.counted.balanced
  have hwait : phase o = .waiting → Pc.writeWait ∈ s.threads := by
    intro hph
    rw [h.mem_owner rfl]
    match o, hph with
    | some .writeWait, _ => rfl
  cases hph : phase o with
  | waiting =>
    rw [hph] at hb
    simp only [Balanced] at hb
    exact ⟨by omega, fun _ => hwait hph⟩
  | _ =>
    rw [hph] at hb
    simp only [Balanced] at hb
    exact ⟨by omega, fun hne => absurd (by omega) hne⟩

theorem withdrawn_eq (h : Inv s o) : (Announced s → withdrawn (phase o) = kMaxReaders) ∧
    (¬ Announced s → withdrawn (phase o) = 0) := by
  constructor
  · rintro ⟨pc, hmem, hpc⟩
    have hmu : pc.holdsMu = true := by cases pc <;> first | rfl | cases hpc
    rw [h.mem_owner hmu] at hmem
    subst hmem
    cases pc <;> first | rfl | cases hpc
  · intro hnone
    cases o with
    | none => rfl
    | some pc =>
      have hmem : pc ∈ s.threads := by
        have : pc ∈ s.threads.filter Pc.holdsMu := by
          rw [h.holder]
          exact List.mem_singleton_self pc
        exact (List.mem_filter.mp this).1
      cases pc <;> first | rfl | exact absurd ⟨_, hmem, rfl⟩ hnone

theorem countedBy (h : Inv s o) : (Announced s → s.shared.readerCount = s.enrolled - kMaxReaders) ∧
    (¬ Announced s → s.shared.readerCount = s.enrolled) := by
  have hcount := h.counted.count
  have henrolled := enrolled_eq s.threads
  unfold State.enrolled
  obtain ⟨h1, h2⟩ := h.withdrawn_eq
  constructor
  · intro ha
    have := h1 ha
    omega
  · intro ha
    have := h2 ha
    omega

/-- The counters stay far from the ends of `int32_t`. -/
theorem narrow (h : Inv s o) : (-kMaxReaders ≤ s.shared.readerCount ∧ s.shared.readerCount < kMaxReaders) ∧
    -kMaxReaders ≤ s.shared.readerWait ∧ s.shared.readerWait < kMaxReaders := by
  obtain ⟨hcount, hfew, hb⟩ := h.counted
  cases hph : phase o <;> rw [hph] at hb hcount <;> simp only [Balanced, withdrawn, kMaxReaders] at hb hcount hfew ⊢ <;>
    omega

/-- Where nobody is inside, a queued reader has a token, or the mutex is with a thread that can go on. -/
theorem unstuck (h : Inv s o) : ¬ Stuck s := by
  rintro ⟨⟨pc, hmem, hwaits⟩, hall⟩
  have hnobody : ∀ p : Pc → Bool, (∀ pc, p pc = true → pc ≠ .idle ∧ ¬ Blocked s.shared pc) → s.threads.countP p = 0 := by
    intro p hp
    refine List.countP_eq_zero.mpr fun pc hpc hpos => ?_
    obtain ⟨hidle, hfree⟩ := hp pc hpos
    exact (hall pc hpc).elim hidle hfree
  have hinside : (census s.threads).inside = 0 := hnobody _ fun pc hpc => by
    cases pc <;> cases hpc
    exact ⟨nofun, id⟩
  have hleft : (census s.threads).left = 0 := hnobody _ fun pc hpc => by
    cases pc <;> cases hpc
    exact ⟨nofun, id⟩
  have hposting : (census s.threads).posting = 0 := hnobody _ fun pc hpc => by
    cases pc <;> cases hpc
    exact ⟨nofun, id⟩
  -- a queued reader finds no token
  have hqueued : (census s.threads).queued ≠ 0 → s.shared.readerSem = 0 := by
    intro hq
    obtain ⟨pc, hpc, hpos⟩ := List.countP_pos_iff.mp (Nat.pos_of_ne_zero hq)
    have hblocked := hall pc hpc
    cases pc <;> cases hpos
    exact hblocked.resolve_left nofun
  have hb := h.counted.balanced
  cases o with
  | none =>
    -- the mutex is free, so every queued reader has its token
    have hmu : s.shared.writerMu = false := h.mutex
    simp only [phase, Balanced] at hb
    have hblocked := hall pc hmem
    cases pc with
    | readQueued =>
      have hpos : 0 < (census s.threads).queued := List.countP_pos_iff.mpr ⟨_, hmem, rfl⟩
      have := hqueued (by omega)
      omega
    | writeQueued => exact absurd (hmu.symm.trans (hblocked.resolve_left nofun)) Bool.false_ne_true
    | writeWait =>
      have hnone := (h.mem_owner rfl).mp hmem
      cases hnone
    | _ => cases hwaits
  | some own =>
    -- the owner is blocked itself, which it can only be before the last reader has left
    have hown : own ∈ s.threads := by
      have hfilter : own ∈ s.threads.filter Pc.holdsMu := by
        rw [h.holder]
        exact List.mem_singleton_self own
      exact (List.mem_filter.mp hfilter).1
    have hmu : own.holdsMu = true := by
      have hfilter : own ∈ s.threads.filter Pc.holdsMu := by
        rw [h.holder]
        exact List.mem_singleton_self own
      exact (List.mem_filter.mp hfilter).2
    have hblocked := hall own hown
    cases own with
    | writeWait =>
      have hsem : s.shared.writerSem = 0 := hblocked.resolve_left nofun
      simp only [phase, Balanced] at hb
      by_cases hq : (census s.threads).queued = 0
      · omega
      · have := hqueued hq
        omega
    | idle => cases hmu
    | readQueued => cases hmu
    | writeQueued => cases hmu
    | _ => exact hblocked.elim nofun id

end Inv

/-- The lock as its users see it. -/
def asLock (s : State) : RwLock where
  readers := s.threads.countP Pc.isReading
  writing := decide (Pc.writing ∈ s.threads)

/-- The mutex keeps what a reader-writer lock keeps. -/
theorem Safe.guards {s : State} (h : Safe s) :
    (asLock s).Guards (s.threads.countP Pc.isReading) (s.threads.countP Pc.isWriting) where
  readers := rfl
  writers := by
    have hle := h.exclusive.1
    unfold asLock
    split
    · next hw =>
      have hpos : 0 < s.threads.countP Pc.isWriting := List.countP_pos_iff.mpr ⟨_, of_decide_eq_true hw, rfl⟩
      omega
    · next hw =>
      refine List.countP_eq_zero.mpr fun pc hpc hpos => hw (decide_eq_true ?_)
      rw [← Inv.eq_of_isWriting hpos]
      exact hpc
  excludes hw := by
    refine List.countP_eq_zero.mpr fun pc hpc hpos => h.exclusive.2 (of_decide_eq_true hw) ?_
    rw [← Inv.isReading_iff.mp hpos]
    exact hpc

/-- Any number of threads, in any order of their steps: a writer is alone, the counters count, the writers' semaphore
has at most the token of a waiting writer, and no wake-up is lost. -/
theorem sharedMutex_safe {s : State} (h : Reachable s) : Safe s := by
  obtain ⟨o, ho⟩ := h.inv
  exact ⟨ho.exclusive, ho.token, ho.countedBy, ho.unstuck⟩

/-- A writer that waits for a reader to leave. -/
theorem sharedMutex_safe_waiting : ∃ s, Reachable s ∧ Pc.reading ∈ s.threads ∧ Pc.writeWait ∈ s.threads ∧ Safe s := by
  have h1 : Step ⟨{}, [] ++ .idle :: [.idle]⟩ ⟨{ readerCount := 1 }, [] ++ .reading :: [.idle]⟩ :=
    .mk .lockShared (by decide)
  have h2 : Step ⟨{ readerCount := 1 }, [.reading] ++ .idle :: []⟩ ⟨{ readerCount := 1 }, [.reading] ++ .writeQueued :: []⟩ :=
    .mk .lock (by decide)
  have h3 : Step ⟨{ readerCount := 1 }, [.reading] ++ .writeQueued :: []⟩
      ⟨{ readerCount := 1, writerMu := true }, [.reading] ++ .writeAnnounce :: []⟩ := .mk (.lockMu rfl) (by decide)
  have h4 : Step ⟨{ readerCount := 1, writerMu := true }, [.reading] ++ .writeAnnounce :: []⟩
      ⟨{ readerCount := 1 - kMaxReaders, writerMu := true }, [.reading] ++ .writeSettle 1 :: []⟩ :=
    .mk .announce (by decide)
  have h5 : Step ⟨{ readerCount := 1 - kMaxReaders, writerMu := true }, [.reading] ++ .writeSettle 1 :: []⟩
      ⟨{ readerCount := 1 - kMaxReaders, readerWait := 0 + 1, writerMu := true }, [.reading] ++ .writeWait :: []⟩ :=
    .mk .settle (by decide)
  have hreach : Reachable ⟨{ readerCount := 1 - kMaxReaders, readerWait := 0 + 1, writerMu := true },
      [.reading] ++ .writeWait :: []⟩ := ⟨2, ((((Relation.ReflTransGen.single h1).tail h2).tail h3).tail h4).tail h5⟩
  exact ⟨_, hreach, List.mem_cons_self, List.mem_cons_of_mem _ List.mem_cons_self, sharedMutex_safe hreach⟩

end Pineapple.SharedMutex
