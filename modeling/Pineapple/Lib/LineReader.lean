import Mathlib.Data.List.Basic

/-! # Reading text line by line

A reader takes an item off the front of a text and gives what is left. -/

namespace LineReader

universe u v
variable {τ : Type u} {α β : Type v}

/-- What follows the literal text `p`. -/
def literal [DecidableEq τ] : List τ → List τ → Option (List τ)
  | [], s => some s
  | _ :: _, [] => none
  | c :: p, d :: s => if c = d then literal p s else none

@[simp] theorem literal_nil [DecidableEq τ] (s : List τ) : literal [] s = some s := by
  rw [literal]

@[simp] theorem literal_cons_self [DecidableEq τ] (c : τ) (p s : List τ) : literal (c :: p) (c :: s) = literal p s :=
  if_pos rfl

@[simp] theorem literal_append [DecidableEq τ] (p s : List τ) : literal p (p ++ s) = some s := by
  induction p with
  | nil => rfl
  | cons c p ih => rw [List.cons_append, literal, if_pos rfl, ih]

/-- The characters up to the first one that `keep` rejects, and what is left. -/
def run (keep : τ → Bool) (s : List τ) : List τ × List τ := (s.takeWhile keep, s.dropWhile keep)

theorem run_append {keep : τ → Bool} {w : List τ} {c : τ} (hw : ∀ d ∈ w, keep d = true) (hc : keep c = false)
    (s : List τ) : run keep (w ++ c :: s) = (w, c :: s) := by
  rw [run, List.takeWhile_append_of_pos hw, List.dropWhile_append_of_pos hw]
  simp [hc]

/-- The items that lines at the front of a text stand for. -/
inductive Lines (read : List τ → Option (α × List τ)) : List α → List τ → List τ → Prop
  | nil {s} : Lines read [] s s
  | cons {x xs s t u} : read s = some (x, t) → Lines read xs t u → Lines read (x :: xs) s u

/-- Written lines are read as the given items exactly when each of them is. -/
theorem lines_iff {read : List τ → Option (α × List τ)} {write : β → List τ} {val : β → α} {ok : β → Prop} {xs : List β}
    (h : ∀ x ∈ xs, ∀ tail t, read (write x ++ tail) = some (val x, t) ↔ ok x ∧ t = tail) (tail rest : List τ) :
    Lines read (xs.map val) (xs.flatMap write ++ tail) rest ↔ (∀ x ∈ xs, ok x) ∧ rest = tail := by
  induction xs with
  | nil =>
    constructor
    · rintro ⟨⟩
      exact ⟨nofun, rfl⟩
    · rintro ⟨-, rfl⟩
      exact .nil
  | cons x xs ih =>
    have ih := ih fun y hy => h y (List.mem_cons_of_mem _ hy)
    have hx := h x List.mem_cons_self (xs.flatMap write ++ tail)
    rw [List.map_cons, List.flatMap_cons, List.append_assoc, List.forall_mem_cons]
    constructor
    · rintro (_ | ⟨hread, hlines⟩)
      obtain ⟨hok, rfl⟩ := (hx _).mp hread
      obtain ⟨hall, hrest⟩ := ih.mp hlines
      exact ⟨⟨hok, hall⟩, hrest⟩
    · rintro ⟨⟨hok, hall⟩, hrest⟩
      exact .cons ((hx _).mpr ⟨hok, rfl⟩) (ih.mpr ⟨hall, hrest⟩)

/-- The text is `header`, lines for `nodes`, `sep`, lines for `edges` and `footer`. -/
def TwoParts [DecidableEq τ] (header : List τ) (readNode : List τ → Option (α × List τ)) (sep : τ)
    (readEdge : List τ → Option (α × List τ)) (footer text : List τ) (nodes edges : List α) : Prop :=
  ∃ s t, literal header text = some s ∧ Lines readNode nodes s (sep :: t) ∧ Lines readEdge edges t footer

/-- Where the edges are read once the nodes are, the text is read exactly when the nodes are. -/
theorem twoParts_iff [DecidableEq τ] {γ : Type v} {header footer : List τ} {sep : τ}
    {readNode readEdge : List τ → Option (α × List τ)} {writeNode : β → List τ} {writeEdge : γ → List τ} {node : β → α}
    {edge : γ → α} {ok : β → Prop} {nodes : List β} {edges : List γ}
    (hnode : ∀ x ∈ nodes, ∀ tail t, readNode (writeNode x ++ tail) = some (node x, t) ↔ ok x ∧ t = tail)
    (hedge : (∀ x ∈ nodes, ok x) → ∀ x ∈ edges, ∀ tail, readEdge (writeEdge x ++ tail) = some (edge x, tail)) :
    TwoParts header readNode sep readEdge footer
        (header ++ (nodes.flatMap writeNode ++ sep :: (edges.flatMap writeEdge ++ footer))) (nodes.map node) (edges.map edge) ↔
      ∀ x ∈ nodes, ok x := by
  constructor
  · rintro ⟨s, t, hs, hnodes, -⟩
    rw [literal_append] at hs
    cases hs
    exact ((lines_iff hnode _ _).mp hnodes).1
  · intro hall
    have hedges : ∀ x ∈ edges, ∀ tail t, readEdge (writeEdge x ++ tail) = some (edge x, t) ↔ True ∧ t = tail := by
      intro x hx tail t
      rw [hedge hall x hx, Option.some_inj, Prod.mk.injEq, true_and, eq_self, true_and, eq_comm]
    exact ⟨_, _, literal_append header _, (lines_iff hnode _ _).mpr ⟨hall, rfl⟩,
      (lines_iff hedges _ _).mpr ⟨fun _ _ => trivial, rfl⟩⟩

end LineReader
