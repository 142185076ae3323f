import Mathlib.Data.Nat.Notation

/-! # A reader-writer lock

The lock by itself, and what it guards: so many threads inside its shared sections and so many inside its
exclusive ones. -/

structure RwLock where
  readers : Nat := 0
  writing : Bool := false

namespace RwLock

def lockShared (l : RwLock) : RwLock := { l with readers := l.readers + 1 }

def unlockShared (l : RwLock) : RwLock := { l with readers := l.readers - 1 }

def lock (l : RwLock) : RwLock := { l with writing := true }

def unlock (l : RwLock) : RwLock := { l with writing := false }

/-- A shared section may begin. -/
def CanShare (l : RwLock) : Prop := l.writing = false

/-- An exclusive section may begin. -/
def Free (l : RwLock) : Prop := l.writing = false ∧ l.readers = 0

/-- The lock is kept by `readers` threads in shared sections and `writers` in exclusive ones. -/
structure Guards (l : RwLock) (readers writers : Nat) : Prop where
  readers : l.readers = readers
  writers : writers = if l.writing then 1 else 0
  excludes : l.writing = true → l.readers = 0

namespace Guards
variable {l : RwLock} {r w : Nat}

theorem lockShared (h : l.Guards r w) (hl : l.CanShare) : l.lockShared.Guards (r + 1) w where
  readers := congrArg (· + 1) h.readers
  writers := h.writers
  excludes hw := absurd (hl.symm.trans hw) Bool.false_ne_true

/-- A reader keeps every writer out. -/
theorem no_writer (h : l.Guards r w) (hr : 0 < r) : w = 0 ∧ l.writing = false := by
  have hw : l.writing = false := by
    cases hw : l.writing with
    | false => rfl
    | true =>
      have h0 := h.excludes hw
      rw [h.readers] at h0
      omega
  refine ⟨?_, hw⟩
  rw [h.writers, hw]
  rfl

theorem unlockShared (h : l.Guards (r + 1) w) : l.unlockShared.Guards r w where
  readers := by rw [RwLock.unlockShared, h.readers, Nat.add_sub_cancel]
  writers := h.writers
  excludes hw := absurd ((h.no_writer (Nat.succ_pos r)).2.symm.trans hw) Bool.false_ne_true

theorem lock (h : l.Guards r w) (hl : l.Free) : l.lock.Guards r (w + 1) where
  readers := h.readers
  writers := by
    rw [h.writers, hl.1]
    rfl
  excludes _ := hl.2

/-- A writer is alone and keeps every reader out. -/
theorem alone (h : l.Guards r (w + 1)) : w = 0 ∧ r = 0 := by
  have hw := h.writers
  split at hw
  · next hwriting => exact ⟨Nat.succ.inj hw, h.readers.symm.trans (h.excludes hwriting)⟩
  · exact absurd hw (Nat.succ_ne_zero w)

theorem unlock (h : l.Guards r (w + 1)) : l.unlock.Guards r w where
  readers := h.readers
  writers := h.alone.1
  excludes hw := absurd hw Bool.false_ne_true

end Guards
end RwLock
