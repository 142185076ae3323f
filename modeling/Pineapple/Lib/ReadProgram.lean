/-! # Programs that read a store

`ReadProgram κ ν α` asks a store for the values of keys, one after the other, and may choose the next key
by what it was told. `reads` is what one run asks for, `MayRead` what some run does. -/

universe u v w

inductive ReadProgram (κ : Type u) (ν : Type v) (α : Type w) where
  | ret (a : α)
  | read (k : κ) (next : ν → ReadProgram κ ν α)

namespace ReadProgram
variable {κ : Type u} {ν : Type v} {α : Type w}

def run (env : κ → ν) : ReadProgram κ ν α → α
  | ret a => a
  | read k next => (next (env k)).run env

/-- The keys the run on `env` asks for. -/
def reads (env : κ → ν) : ReadProgram κ ν α → List κ
  | ret _ => []
  | read k next => k :: (next (env k)).reads env

@[simp] theorem run_ret (env : κ → ν) (a : α) : (ret a : ReadProgram κ ν α).run env = a := rfl

theorem run_read (env : κ → ν) (k : κ) (next : ν → ReadProgram κ ν α) :
    (read k next).run env = (next (env k)).run env := rfl

@[simp] theorem reads_ret (env : κ → ν) (a : α) : (ret a : ReadProgram κ ν α).reads env = [] := rfl

theorem reads_read (env : κ → ν) (k : κ) (next : ν → ReadProgram κ ν α) :
    (read k next).reads env = k :: (next (env k)).reads env := rfl

def MayRead (p : ReadProgram κ ν α) (k : κ) : Prop := ∃ env, k ∈ p.reads env

/-- Stores that agree on what a run asks for give the same run. -/
theorem run_congr {env env' : κ → ν} (p : ReadProgram κ ν α) (h : ∀ k ∈ p.reads env, env' k = env k) :
    p.run env' = p.run env ∧ p.reads env' = p.reads env := by
  induction p with
  | ret a => exact ⟨rfl, rfl⟩
  | read k next ih =>
    have hk : env' k = env k := h k List.mem_cons_self
    obtain ⟨hrun, hreads⟩ := ih (env k) fun j hj => h j (List.mem_cons_of_mem _ hj)
    rw [run_read, run_read, reads_read, reads_read, hk]
    exact ⟨hrun, by rw [hreads]⟩

end ReadProgram
