import Pineapple.Lib.DepthScan
import Pineapple.Variant

/-! # The scan for non-finite numbers (`row_frame.go`, `FrameValues.java`, `frame_values.hpp`)

Composites of Go and Java are references, so a value is a graph and may have cycles; what a scan remembers of the
composites it went through decides which it goes through again. A Variant is a tree. -/

namespace Pineapple
open DepthScan (Vertex Memo Reaches scanEach walk)

/-! ## Go -/

namespace GoScan

/-- A slice is a window of an array, its elements at consecutive addresses. A `float32` is the `float64` it converts
to. -/
inductive Value where
  | nil
  | bool (b : Bool)
  | string (s : String)
  | integer (n : Int)
  | float64 (d : Binary64)
  | float32 (d : Binary64)
  | slice (ptr len : Nat)
  | map (ptr : Nat)

structure Heap where
  cell : Nat → Value
  entries : Nat → List (String × Value)

def Heap.elements (heap : Heap) (ptr len : Nat) : List Value := (List.range len).map fun i => heap.cell (ptr + i)

/-- The orders in which loops over maps run, each at its own moment of the scan. -/
structure Heap.Ranges (heap : Heap) (σ : Type) where
  entries : σ → Nat → List (String × Value)
  perm : ∀ s ptr, (entries s ptr).Perm (heap.entries ptr)

def maxCompositeScanDepth : Nat := 1000

inductive CompositeType where
  | anySlice
  | anyMap
deriving DecidableEq

structure CompositeID where
  ptr : Nat
  len : Nat
  typ : CompositeType
deriving DecidableEq

structure SeenComposite where
  id : CompositeID
  depth : Nat

/-- `nonFiniteScanner`: the slots of `small` that are in use, and `more` with its newest entries first. -/
structure Scanner where
  small : List SeenComposite := []
  more : Option (List SeenComposite) := none

def depthOf (id : CompositeID) : List SeenComposite → Option Nat
  | [] => none
  | seen :: rest => if seen.id = id then some seen.depth else depthOf id rest

/-- The loop of `enter` over `small`: what it returns, if it returns, is nothing or the slots with the new depth. -/
def enterSmall (id : CompositeID) (depth : Nat) : List SeenComposite → Option (Option (List SeenComposite))
  | [] => none
  | seen :: small =>
    if seen.id = id then
      if seen.depth ≤ depth then some none else some (some ({ seen with depth } :: small))
    else (enterSmall id depth small).map (·.map (seen :: ·))

/-- `enter`: the scanner after it where the composite still needs scanning. -/
def Scanner.enter (s : Scanner) (id : CompositeID) (depth : Nat) : Option Scanner :=
  match enterSmall id depth s.small with
  | some small => small.map fun small => { s with small }
  | none =>
    match s.more with
    | some more =>
      if (depthOf id more).any (· ≤ depth) then none else some { s with more := some (⟨id, depth⟩ :: more) }
    | none =>
      if s.small.length < 16 then some { s with small := s.small ++ [⟨id, depth⟩] }
      else some { s with more := some [⟨id, depth⟩] }

def isNonFiniteFloat (d : Binary64) : Bool := !d.isFinite

/-- `scan`. -/
def scan {heap : Heap} (ranges : heap.Ranges Scanner) (s : Scanner) (v : Value) (depth : Nat) : Bool × Scanner :=
  match v with
  | .nil | .bool _ | .string _ | .integer _ => (false, s)
  | .float64 d => (isNonFiniteFloat d, s)
  | .float32 d => (isNonFiniteFloat d, s)
  | .slice ptr len =>
    if _h : depth ≥ maxCompositeScanDepth ∨ len = 0 then (false, s)
    else
      match s.enter ⟨ptr, len, .anySlice⟩ depth with
      | none => (false, s)
      | some s => scanEach (fun s e => scan ranges s e (depth + 1)) s (heap.elements ptr len)
  | .map ptr =>
    if _h : depth ≥ maxCompositeScanDepth ∨ (heap.entries ptr).length = 0 then (false, s)
    else
      match s.enter ⟨ptr, 0, .anyMap⟩ depth with
      | none => (false, s)
      | some s => scanEach (fun s (e : String × Value) => scan ranges s e.2 (depth + 1)) s (ranges.entries s ptr)
termination_by maxCompositeScanDepth - depth

def containsNonFinite {heap : Heap} (ranges : heap.Ranges Scanner) (v : Value) : Bool := (scan ranges {} v 0).1

/-! ### As a graph -/

/-- An empty composite is a leaf that holds nothing. -/
def Heap.node (heap : Heap) : Value → Vertex CompositeID
  | .float64 d => .leaf (isNonFiniteFloat d)
  | .float32 d => .leaf (isNonFiniteFloat d)
  | .slice ptr len => if len = 0 then .leaf false else .composite ⟨ptr, len, .anySlice⟩
  | .map ptr => if (heap.entries ptr).length = 0 then .leaf false else .composite ⟨ptr, 0, .anyMap⟩
  | _ => .leaf false

def Heap.children (heap : Heap) (id : CompositeID) : List (Vertex CompositeID) :=
  match id.typ with
  | .anySlice => (heap.elements id.ptr id.len).map heap.node
  | .anyMap => (heap.entries id.ptr).map fun e => heap.node e.2

def Scanner.find (s : Scanner) (id : CompositeID) : Option Nat :=
  match depthOf id s.small with
  | some d => some d
  | none => s.more.bind (depthOf id)

variable {id id' : CompositeID} {depth : Nat} {small small' : List SeenComposite}

theorem enterSmall_none : enterSmall id depth small = none ↔ depthOf id small = none := by
  induction small with
  | nil => exact iff_of_true rfl rfl
  | cons seen small ih =>
    rw [enterSmall, depthOf]
    split
    · split <;> simp
    · rw [Option.map_eq_none_iff, ih]

theorem enterSmall_skip (h : enterSmall id depth small = some none) : ∃ d ≤ depth, depthOf id small = some d := by
  induction small with
  | nil => cases h
  | cons seen small ih =>
    rw [enterSmall] at h
    rw [depthOf]
    split at h
    · next hid =>
      split at h
      · next hle => exact ⟨seen.depth, hle, by rw [if_pos hid]⟩
      · cases h
    · next hid =>
      rw [if_neg hid]
      obtain ⟨r, hr, hmap⟩ := Option.map_eq_some_iff.mp h
      rw [Option.map_eq_none_iff] at hmap
      exact ih (hmap ▸ hr)

theorem enterSmall_some (h : enterSmall id depth small = some (some small')) :
    (∃ d, depthOf id small = some d ∧ depth < d) ∧ depthOf id small' = some depth ∧
      ∀ id', id' ≠ id → depthOf id' small' = depthOf id' small := by
  induction small generalizing small' with
  | nil => cases h
  | cons seen small ih =>
    rw [enterSmall] at h
    split at h
    · next hid =>
      split at h
      · cases h
      · next hle =>
        cases h
        refine ⟨⟨seen.depth, by rw [depthOf, if_pos hid], by omega⟩, by rw [depthOf, if_pos hid], fun id' hne => ?_⟩
        rw [depthOf, depthOf, if_neg fun h => hne (h.symm.trans hid), if_neg fun h => hne (h.symm.trans hid)]
    · next hid =>
      obtain ⟨r, hr, hmap⟩ := Option.map_eq_some_iff.mp h
      obtain ⟨rest, rfl, rfl⟩ := Option.map_eq_some_iff.mp hmap
      obtain ⟨⟨d, hfind, hlt⟩, hnew, hothers⟩ := ih hr
      refine ⟨⟨d, by rw [depthOf, if_neg hid, hfind], hlt⟩, by rw [depthOf, if_neg hid, hnew], fun id' hne => ?_⟩
      rw [depthOf, depthOf, hothers id' hne]

theorem depthOf_append (id : CompositeID) (xs ys : List SeenComposite) :
    depthOf id (xs ++ ys) = (depthOf id xs).or (depthOf id ys) := by
  induction xs with
  | nil => rfl
  | cons seen xs ih =>
    rw [List.cons_append, depthOf, depthOf, ih]
    split <;> rfl

/-- A new slot, once no slot has the composite. -/
theorem depthOf_slot (hfind : depthOf id small = none) : depthOf id (small ++ [⟨id, depth⟩]) = some depth ∧
    ∀ id', id' ≠ id → depthOf id' (small ++ [⟨id, depth⟩]) = depthOf id' small := by
  refine ⟨by rw [depthOf_append, hfind, depthOf, if_pos rfl]; rfl, fun id' hne => ?_⟩
  rw [depthOf_append, depthOf, if_neg (Ne.symm hne), depthOf, Option.or_none]

theorem enter_memo : Memo Scanner.find Scanner.enter where
  skip := by
    intro s id depth h
    unfold Scanner.enter at h
    unfold Scanner.find
    split at h
    · next r hr =>
      rw [Option.map_eq_none_iff] at h
      obtain ⟨d, hle, hfind⟩ := enterSmall_skip (h ▸ hr)
      exact ⟨d, hle, by rw [hfind]⟩
    · next hr =>
      rw [enterSmall_none.mp hr]
      split at h
      · next more hmore =>
        rw [hmore, Option.bind_some]
        split at h
        · next hany => exact (Option.any_eq_true_iff_get _ _ |>.mp hany).elim fun hsome hle =>
            ⟨_, of_decide_eq_true hle, (Option.some_get hsome).symm⟩
        · cases h
      · split at h <;> cases h
  shallower := by
    intro s id depth s' h d hd
    unfold Scanner.enter at h
    unfold Scanner.find at hd
    split at h
    · next r hr =>
      obtain ⟨small, rfl, -⟩ := Option.map_eq_some_iff.mp h
      obtain ⟨⟨e, hfind, hlt⟩, -, -⟩ := enterSmall_some hr
      rw [hfind] at hd
      exact Option.some.inj hd ▸ hlt
    · next hr =>
      rw [enterSmall_none.mp hr] at hd
      split at h
      · next more hmore =>
        rw [hmore] at hd
        replace hd : depthOf id more = some d := hd
        split at h
        · cases h
        · next hany =>
          rw [hd, Option.any_some, decide_eq_true_eq] at hany
          omega
      · next hmore =>
        rw [hmore] at hd
        cases hd
  entered := by
    intro s id depth s' h
    unfold Scanner.enter at h
    unfold Scanner.find
    split at h
    · next r hr =>
      obtain ⟨small, rfl, rfl⟩ := Option.map_eq_some_iff.mp h
      rw [(enterSmall_some hr).2.1]
    · next hr =>
      have hsmall := enterSmall_none.mp hr
      split at h
      · split at h
        · cases h
        · cases h
          simp only [hsmall, Option.bind_some, depthOf, if_true]
      · split at h
        · cases h
          simp only [(depthOf_slot hsmall).1]
        · cases h
          simp only [hsmall, Option.bind_some, depthOf, if_true]
  others := by
    intro s id depth s' h id' hne
    unfold Scanner.enter at h
    unfold Scanner.find
    split at h
    · next r hr =>
      obtain ⟨small, rfl, rfl⟩ := Option.map_eq_some_iff.mp h
      rw [(enterSmall_some hr).2.2 id' hne]
    · next hr =>
      have hsmall := enterSmall_none.mp hr
      split at h
      · next more hmore =>
        split at h
        · cases h
        · cases h
          simp only [hmore, Option.bind_some, depthOf, if_neg (Ne.symm hne)]
      · next hmore =>
        split at h
        · cases h
          simp only [(depthOf_slot hsmall).2 id' hne]
        · cases h
          simp only [hmore, Option.bind_some, Option.bind_none, depthOf, if_neg (Ne.symm hne)]

/-! ### The search -/

variable {heap : Heap}

/-- The search of the graph sees a composite's children in the order its loop runs. -/
def order (ranges : heap.Ranges Scanner) (s : Scanner) (id : CompositeID) : List (Vertex CompositeID) :=
  match id.typ with
  | .anySlice => (heap.elements id.ptr id.len).map heap.node
  | .anyMap => (ranges.entries s id.ptr).map fun e => heap.node e.2

theorem order_perm (ranges : heap.Ranges Scanner) (s : Scanner) (id : CompositeID) :
    (order ranges s id).Perm (heap.children id) := by
  unfold order Heap.children
  rcases id with ⟨ptr, len, typ⟩
  rcases typ
  · exact .refl _
  · exact (ranges.perm s ptr).map _

theorem scan_eq (ranges : heap.Ranges Scanner) {k depth : Nat} (hk : depth + k = maxCompositeScanDepth) (s : Scanner)
    (v : Value) : scan ranges s v depth =
      DepthScan.scan Scanner.enter (order ranges) maxCompositeScanDepth k s (heap.node v) := by
  induction k generalizing depth s v with
  | zero =>
    have hdepth : depth ≥ maxCompositeScanDepth := by omega
    unfold scan
    rcases v with _ | _ | _ | _ | d | d | ⟨ptr, len⟩ | ptr
    all_goals try rfl
    · dsimp only
      rw [dif_pos (Or.inl hdepth), Heap.node]
      split <;> rfl
    · dsimp only
      rw [dif_pos (Or.inl hdepth), Heap.node]
      split <;> rfl
  | succ k ih =>
    have hdepth : ¬ depth ≥ maxCompositeScanDepth := by omega
    have hchild : ∀ s v, scan ranges s v (depth + 1) =
        DepthScan.scan Scanner.enter (order ranges) maxCompositeScanDepth k s (heap.node v) := ih (by omega)
    unfold scan
    rcases v with _ | _ | _ | _ | d | d | ⟨ptr, len⟩ | ptr
    all_goals try rfl
    · by_cases hlen : len = 0
      · dsimp only
        rw [dif_pos (Or.inr hlen), Heap.node, if_pos hlen]
        rfl
      · dsimp only
        rw [dif_neg fun h => h.elim hdepth hlen, Heap.node, if_neg hlen, DepthScan.scan,
          show maxCompositeScanDepth - (k + 1) = depth by omega]
        rcases s.enter ⟨ptr, len, .anySlice⟩ depth with _ | s
        · rfl
        · simp only [hchild]
          exact DepthScan.scanEach_map.symm
    · by_cases hlen : (heap.entries ptr).length = 0
      · dsimp only
        rw [dif_pos (Or.inr hlen), Heap.node, if_pos hlen]
        rfl
      · dsimp only
        rw [dif_neg fun h => h.elim hdepth hlen, Heap.node, if_neg hlen, DepthScan.scan,
          show maxCompositeScanDepth - (k + 1) = depth by omega]
        rcases s.enter ⟨ptr, 0, .anyMap⟩ depth with _ | s
        · rfl
        · simp only [hchild]
          exact DepthScan.scanEach_map.symm

/-- Whatever the orders of the maps, the scan answers as the walk of the value as a tree. -/
theorem containsNonFinite_eq (ranges : heap.Ranges Scanner) (v : Value) :
    containsNonFinite ranges v = walk heap.children maxCompositeScanDepth (heap.node v) := by
  rw [containsNonFinite, scan_eq ranges (Nat.zero_add _)]
  exact DepthScan.scan_eq_walk enter_memo (order_perm ranges) (fun _ => rfl) _

end GoScan

/-! ## Java -/

namespace JavaScan

/-- A `Number` is known by its `doubleValue`, a list or a map by its identity. -/
inductive Value where
  | null
  | bool (b : Bool)
  | string (s : String)
  | number (d : Binary64)
  | object (ref : Nat)

inductive Composite where
  | list (xs : List Value)
  | map (es : List (String × Value))

abbrev Heap := Nat → Composite

/-- The orders in which loops over maps run. -/
structure Heap.Ranges (heap : Heap) (σ : Type) where
  entries : σ → Nat → List (String × Value)
  perm : ∀ s ref es, heap ref = .map es → (entries s ref).Perm es

def maxCompositeScanDepth : Nat := 1000

/-- `Scanner`: its first composite, and the others with the newest entries first. -/
structure Scanner where
  first : Option (Nat × Nat) := none
  seen : Option (List (Nat × Nat)) := none
  ordered : first = none → seen = none := by intro; rfl

def Scanner.enter (s : Scanner) (composite depth : Nat) : Option Scanner :=
  match s.first with
  | none => some { s with first := some (composite, depth), ordered := nofun }
  | some (first, firstDepth) =>
    if first = composite then
      if firstDepth ≤ depth then none else some { s with first := some (first, depth), ordered := nofun }
    else
      match s.seen with
      | none => some ⟨some (first, firstDepth), some [(composite, depth)], nofun⟩
      | some seen =>
        if (seen.lookup composite).any (· ≤ depth) then none
        else some ⟨some (first, firstDepth), some ((composite, depth) :: seen), nofun⟩

def isNonFinite (d : Binary64) : Bool := !d.isFinite

/-- `containsNonFinite`. -/
def containsNonFinite {heap : Heap} (ranges : heap.Ranges Scanner) (s : Scanner) (v : Value) (depth : Nat) :
    Bool × Scanner :=
  match v with
  | .number d => (isNonFinite d, s)
  | .object ref =>
    if _h : depth ≥ maxCompositeScanDepth then (false, s)
    else
      match s.enter ref depth with
      | none => (false, s)
      | some s =>
        match heap ref with
        | .list xs => scanEach (fun s e => containsNonFinite ranges s e (depth + 1)) s xs
        | .map _ =>
          scanEach (fun s (e : String × Value) => containsNonFinite ranges s e.2 (depth + 1)) s (ranges.entries s ref)
  | _ => (false, s)
termination_by maxCompositeScanDepth - depth

/-! ### As a graph -/

def node : Value → Vertex Nat
  | .number d => .leaf (isNonFinite d)
  | .object ref => .composite ref
  | _ => .leaf false

def Heap.children (heap : Heap) (ref : Nat) : List (Vertex Nat) :=
  match heap ref with
  | .list xs => xs.map node
  | .map es => es.map fun e => node e.2

def Scanner.find (s : Scanner) (composite : Nat) : Option Nat :=
  match s.first with
  | none => none
  | some (first, firstDepth) =>
    if first = composite then some firstDepth else s.seen.bind (·.lookup composite)

theorem enter_memo : Memo Scanner.find Scanner.enter where
  skip := by
    intro s id depth h
    unfold Scanner.enter at h
    unfold Scanner.find
    split at h
    · cases h
    · next first firstDepth hfirst =>
      split at h
      · next hid =>
        rw [if_pos hid]
        split at h
        · next hle => exact ⟨_, hle, rfl⟩
        · cases h
      · next hid =>
        rw [if_neg hid]
        split at h
        · cases h
        · next seen hseen =>
          split at h
          · next hany =>
            rw [hseen, Option.bind_some]
            exact (Option.any_eq_true_iff_get _ _ |>.mp hany).elim fun hsome hle =>
              ⟨_, of_decide_eq_true hle, (Option.some_get hsome).symm⟩
          · cases h
  shallower := by
    intro s id depth s' h d hd
    unfold Scanner.enter at h
    unfold Scanner.find at hd
    split at h
    · next hfirst =>
      rw [hfirst] at hd
      cases hd
    · next first firstDepth hfirst =>
      rw [hfirst] at hd
      dsimp only at hd
      split at h
      · next hid =>
        rw [if_pos hid] at hd
        split at h
        · cases h
        · next hle =>
          obtain rfl := Option.some.inj hd
          omega
      · next hid =>
        rw [if_neg hid] at hd
        split at h
        · next hseen =>
          rw [hseen] at hd
          cases hd
        · next seen hseen =>
          rw [hseen, Option.bind_some] at hd
          split at h
          · cases h
          · next hany =>
            rw [hd, Option.any_some, decide_eq_true_eq] at hany
            omega
  entered := by
    intro s id depth s' h
    unfold Scanner.enter at h
    unfold Scanner.find
    split at h
    · cases h
      exact if_pos rfl
    · split at h
      · next hid =>
        split at h
        · cases h
        · cases h
          exact if_pos hid
      · next hid =>
        split at h
        · cases h
          simp [hid]
        · split at h
          · cases h
          · cases h
            simp [hid]
  others := by
    intro s id depth s' h id' hne
    unfold Scanner.enter at h
    unfold Scanner.find
    split at h
    · next hfirst =>
      cases h
      simp [s.ordered hfirst, Ne.symm hne]
    · next first firstDepth hfirst =>
      split at h
      · next hid =>
        split at h
        · cases h
        · cases h
          simp [hid, Ne.symm hne]
      · next hid =>
        have hlookup : ∀ l : List (Nat × Nat), ((id, depth) :: l).lookup id' = l.lookup id' := fun l => by
          rw [List.lookup_cons, beq_false_of_ne hne]
        split at h
        · next hseen =>
          cases h
          simp [hseen, hlookup]
        · next seen hseen =>
          split at h
          · cases h
          · cases h
            simp [hseen, hlookup]

variable {heap : Heap}

/-- The search of the graph sees a composite's children in the order its loop runs. -/
def order (ranges : heap.Ranges Scanner) (s : Scanner) (ref : Nat) : List (Vertex Nat) :=
  match heap ref with
  | .list xs => xs.map node
  | .map _ => (ranges.entries s ref).map fun e => node e.2

theorem order_perm (ranges : heap.Ranges Scanner) (s : Scanner) (ref : Nat) :
    (order ranges s ref).Perm (heap.children ref) := by
  unfold order Heap.children
  split
  · exact .refl _
  · next es hes => exact (ranges.perm s ref es hes).map _

theorem scan_eq (ranges : heap.Ranges Scanner) {k depth : Nat} (hk : depth + k = maxCompositeScanDepth) (s : Scanner)
    (v : Value) : containsNonFinite ranges s v depth =
      DepthScan.scan Scanner.enter (order ranges) maxCompositeScanDepth k s (node v) := by
  induction k generalizing depth s v with
  | zero =>
    unfold containsNonFinite
    rcases v with _ | _ | _ | d | ref
    all_goals try rfl
    exact dif_pos (by omega)
  | succ k ih =>
    have hdepth : ¬ depth ≥ maxCompositeScanDepth := by omega
    have hchild : ∀ s v, containsNonFinite ranges s v (depth + 1) =
        DepthScan.scan Scanner.enter (order ranges) maxCompositeScanDepth k s (node v) := ih (by omega)
    unfold containsNonFinite
    rcases v with _ | _ | _ | d | ref
    all_goals try rfl
    dsimp only
    rw [dif_neg hdepth, node, DepthScan.scan, show maxCompositeScanDepth - (k + 1) = depth by omega]
    rcases s.enter ref depth with _ | s
    · rfl
    · simp only [hchild, order]
      split
      · exact DepthScan.scanEach_map.symm
      · exact DepthScan.scanEach_map.symm

theorem containsNonFinite_eq (ranges : heap.Ranges Scanner) (v : Value) :
    (containsNonFinite ranges {} v 0).1 = walk heap.children maxCompositeScanDepth (node v) := by
  rw [scan_eq ranges (Nat.zero_add _)]
  exact DepthScan.scan_eq_walk enter_memo (order_perm ranges) (fun _ => rfl) _

end JavaScan

/-! ## Trees -/

section Trees
variable {ι : Type} {children : ι → List (Vertex ι)}

mutual
/-- What a scan sees of a value is that of a Variant. -/
def TreeOf (children : ι → List (Vertex ι)) : Vertex ι → Variant → Prop
  | v, .null => v = .leaf false
  | v, .bool _ => v = .leaf false
  | v, .string _ => v = .leaf false
  | v, .number d => v = .leaf (!d.isFinite)
  | v, .array xs =>
    (v = .leaf false ∧ xs = []) ∨ ∃ id nodes, v = .composite id ∧ nodes.Perm (children id) ∧ TreeOfArray children nodes xs
  | v, .object es =>
    (v = .leaf false ∧ es = []) ∨
      ∃ id nodes, v = .composite id ∧ nodes.Perm (children id) ∧ TreeOfObject children nodes es

def TreeOfArray (children : ι → List (Vertex ι)) : List (Vertex ι) → List Variant → Prop
  | nodes, [] => nodes = []
  | nodes, x :: xs => ∃ v rest, nodes = v :: rest ∧ TreeOf children v x ∧ TreeOfArray children rest xs

def TreeOfObject (children : ι → List (Vertex ι)) : List (Vertex ι) → List (String × Variant) → Prop
  | nodes, [] => nodes = []
  | nodes, (_, x) :: es => ∃ v rest, nodes = v :: rest ∧ TreeOf children v x ∧ TreeOfObject children rest es
end

theorem reaches_composite {bound depth : Nat} {id : ι} {nodes : List (Vertex ι)} (h : nodes.Perm (children id)) :
    Reaches children bound depth (.composite id) ↔
      depth < bound ∧ ∃ v ∈ nodes, Reaches children bound (depth + 1) v := by
  constructor
  · rintro (_ | ⟨hlt, hmem, hchild⟩)
    exact ⟨hlt, _, h.mem_iff.mpr hmem, hchild⟩
  · rintro ⟨hlt, v, hmem, hv⟩
    exact .composite hlt (h.mem_iff.mp hmem) hv

theorem not_reaches_leaf {bound depth : Nat} : ¬ Reaches children bound depth (.leaf false) := nofun

mutual
theorem reaches_iff : ∀ (x : Variant) {v : Vertex ι} {depth : Nat}, TreeOf children v x →
    (Reaches children Variant.kMaxCompositeScanDepth depth v ↔ x.containsNonFinite depth = true)
  | .null, v, depth, h => by
    rw [TreeOf] at h
    rw [h]
    unfold Variant.containsNonFinite
    exact iff_of_false not_reaches_leaf Bool.false_ne_true
  | .bool _, v, depth, h => by
    rw [TreeOf] at h
    rw [h]
    unfold Variant.containsNonFinite
    exact iff_of_false not_reaches_leaf Bool.false_ne_true
  | .string _, v, depth, h => by
    rw [TreeOf] at h
    rw [h]
    unfold Variant.containsNonFinite
    exact iff_of_false not_reaches_leaf Bool.false_ne_true
  | .number d, v, depth, h => by
    rw [TreeOf] at h
    rw [h, Variant.containsNonFinite]
    constructor
    · intro h
      generalize (!d.isFinite) = bad at h
      cases h
      rfl
    · intro h
      rw [h]
      exact .leaf depth
  | .array xs, v, depth, h => by
    rw [TreeOf] at h
    rw [Variant.containsNonFinite]
    rcases h with ⟨rfl, rfl⟩ | ⟨id, nodes, rfl, hperm, hall⟩
    · rw [Variant.containsNonFiniteArray, ite_self]
      exact iff_of_false not_reaches_leaf Bool.false_ne_true
    · rw [reaches_composite hperm, reachesArray_iff xs hall]
      split
      · next hge => exact iff_of_false (fun h => absurd h.1 (by omega)) Bool.false_ne_true
      · next hlt => exact and_iff_right (by omega)
  | .object es, v, depth, h => by
    rw [TreeOf] at h
    rw [Variant.containsNonFinite]
    rcases h with ⟨rfl, rfl⟩ | ⟨id, nodes, rfl, hperm, hall⟩
    · rw [Variant.containsNonFiniteObject, ite_self]
      exact iff_of_false not_reaches_leaf Bool.false_ne_true
    · rw [reaches_composite hperm, reachesObject_iff es hall]
      split
      · next hge => exact iff_of_false (fun h => absurd h.1 (by omega)) Bool.false_ne_true
      · next hlt => exact and_iff_right (by omega)

theorem reachesArray_iff : ∀ (xs : List Variant) {nodes : List (Vertex ι)} {depth : Nat}, TreeOfArray children nodes xs →
    ((∃ v ∈ nodes, Reaches children Variant.kMaxCompositeScanDepth depth v) ↔
      Variant.containsNonFiniteArray depth xs = true)
  | [], nodes, depth, h => by
    rw [TreeOfArray] at h
    rw [h, Variant.containsNonFiniteArray]
    exact iff_of_false (fun ⟨_, hv, _⟩ => absurd hv List.not_mem_nil) Bool.false_ne_true
  | x :: xs, nodes, depth, h => by
    rw [TreeOfArray] at h
    obtain ⟨v, rest, rfl, hv, hrest⟩ := h
    rw [Variant.containsNonFiniteArray, Bool.or_eq_true, List.exists_mem_cons_iff, reaches_iff x hv,
      reachesArray_iff xs hrest]

theorem reachesObject_iff : ∀ (es : List (String × Variant)) {nodes : List (Vertex ι)} {depth : Nat},
    TreeOfObject children nodes es →
      ((∃ v ∈ nodes, Reaches children Variant.kMaxCompositeScanDepth depth v) ↔
        Variant.containsNonFiniteObject depth es = true)
  | [], nodes, depth, h => by
    rw [TreeOfObject] at h
    rw [h, Variant.containsNonFiniteObject]
    exact iff_of_false (fun ⟨_, hv, _⟩ => absurd hv List.not_mem_nil) Bool.false_ne_true
  | (_, x) :: es, nodes, depth, h => by
    rw [TreeOfObject] at h
    obtain ⟨v, rest, rfl, hv, hrest⟩ := h
    rw [Variant.containsNonFiniteObject, Bool.or_eq_true, List.exists_mem_cons_iff, reaches_iff x hv,
      reachesObject_iff es hrest]
end

/-- On a tree the walk answers as `contains_non_finite`. -/
theorem walk_eq {x : Variant} {v : Vertex ι} (h : TreeOf children v x) :
    walk children Variant.kMaxCompositeScanDepth v = x.containsNonFinite 0 := by
  rw [Bool.eq_iff_iff, DepthScan.walk_iff (Nat.zero_add _), reaches_iff x h]

end Trees

namespace GoScan

variable {heap : Heap}

mutual
/-- A value whose graph is the tree of a Variant. -/
def Heap.Stands (heap : Heap) : Value → Variant → Prop
  | v, .null => v = .nil
  | v, .bool b => v = .bool b
  | v, .string s => v = .string s
  | v, .number d => v = .float64 d ∨ v = .float32 d ∨ ∃ n, v = .integer n ∧ d = Binary64.ofInt n ∧ d.isFinite = true
  | v, .array xs => ∃ ptr len, v = .slice ptr len ∧ heap.StandsArray (heap.elements ptr len) xs
  | v, .object es => ∃ ptr entries, v = .map ptr ∧ entries.Perm (heap.entries ptr) ∧ heap.StandsObject entries es

def Heap.StandsArray (heap : Heap) : List Value → List Variant → Prop
  | vs, [] => vs = []
  | vs, x :: xs => ∃ v rest, vs = v :: rest ∧ heap.Stands v x ∧ heap.StandsArray rest xs

def Heap.StandsObject (heap : Heap) : List (String × Value) → List (String × Variant) → Prop
  | vs, [] => vs = []
  | vs, (key, x) :: es => ∃ v rest, vs = (key, v) :: rest ∧ heap.Stands v x ∧ heap.StandsObject rest es
end

theorem standsArray_nil {xs : List Variant} (h : heap.StandsArray [] xs) : xs = [] := by
  rcases xs with _ | ⟨x, xs⟩
  · rfl
  · rw [Heap.StandsArray] at h
    obtain ⟨v, rest, h, -⟩ := h
    cases h

theorem standsObject_nil {es : List (String × Variant)} (h : heap.StandsObject [] es) : es = [] := by
  rcases es with _ | ⟨⟨key, x⟩, es⟩
  · rfl
  · rw [Heap.StandsObject] at h
    obtain ⟨v, rest, h, -⟩ := h
    cases h

mutual
theorem treeOf : ∀ (x : Variant) {v : Value}, heap.Stands v x → TreeOf heap.children (heap.node v) x
  | .null, v, h => by
    rw [Heap.Stands] at h
    subst h
    rw [TreeOf]
    rfl
  | .bool _, v, h => by
    rw [Heap.Stands] at h
    subst h
    rw [TreeOf]
    rfl
  | .string _, v, h => by
    rw [Heap.Stands] at h
    subst h
    rw [TreeOf]
    rfl
  | .number d, v, h => by
    rw [Heap.Stands] at h
    rw [TreeOf]
    rcases h with rfl | rfl | ⟨n, rfl, -, hfinite⟩
    · rfl
    · rfl
    · rw [hfinite]
      rfl
  | .array xs, v, h => by
    rw [Heap.Stands] at h
    rw [TreeOf]
    obtain ⟨ptr, len, rfl, hall⟩ := h
    rw [Heap.node]
    split
    · next hlen =>
      rw [hlen] at hall
      exact Or.inl ⟨rfl, standsArray_nil hall⟩
    · exact Or.inr ⟨_, _, rfl, .refl _, treeOfArray xs hall⟩
  | .object es, v, h => by
    rw [Heap.Stands] at h
    rw [TreeOf]
    obtain ⟨ptr, entries, rfl, hperm, hall⟩ := h
    rw [Heap.node]
    split
    · next hlen =>
      rw [List.length_eq_zero_iff.mp hlen, List.perm_nil] at hperm
      rw [hperm] at hall
      exact Or.inl ⟨rfl, standsObject_nil hall⟩
    · exact Or.inr ⟨_, _, rfl, hperm.map _, treeOfObject es hall⟩

theorem treeOfArray : ∀ (xs : List Variant) {vs : List Value}, heap.StandsArray vs xs →
    TreeOfArray heap.children (vs.map heap.node) xs
  | [], vs, h => by
    rw [Heap.StandsArray] at h
    rw [h, TreeOfArray, List.map_nil]
  | x :: xs, vs, h => by
    rw [Heap.StandsArray] at h
    obtain ⟨v, rest, rfl, hv, hrest⟩ := h
    rw [TreeOfArray]
    exact ⟨_, _, rfl, treeOf x hv, treeOfArray xs hrest⟩

theorem treeOfObject : ∀ (es : List (String × Variant)) {vs : List (String × Value)}, heap.StandsObject vs es →
    TreeOfObject heap.children (vs.map fun e => heap.node e.2) es
  | [], vs, h => by
    rw [Heap.StandsObject] at h
    rw [h, TreeOfObject, List.map_nil]
  | (key, x) :: es, vs, h => by
    rw [Heap.StandsObject] at h
    obtain ⟨v, rest, rfl, hv, hrest⟩ := h
    rw [TreeOfObject]
    exact ⟨_, _, rfl, treeOf x hv, treeOfObject es hrest⟩
end

end GoScan

namespace JavaScan

variable {heap : Heap}

mutual
/-- A value whose graph is the tree of a Variant. -/
def Heap.Stands (heap : Heap) : Value → Variant → Prop
  | v, .null => v = .null
  | v, .bool b => v = .bool b
  | v, .string s => v = .string s
  | v, .number d => v = .number d
  | v, .array xs => ∃ ref vs, v = .object ref ∧ heap ref = .list vs ∧ Heap.StandsArray heap vs xs
  | v, .object es =>
    ∃ ref entries vs, v = .object ref ∧ heap ref = .map entries ∧ vs.Perm entries ∧ Heap.StandsObject heap vs es

def Heap.StandsArray (heap : Heap) : List Value → List Variant → Prop
  | vs, [] => vs = []
  | vs, x :: xs => ∃ v rest, vs = v :: rest ∧ heap.Stands v x ∧ Heap.StandsArray heap rest xs

def Heap.StandsObject (heap : Heap) : List (String × Value) → List (String × Variant) → Prop
  | vs, [] => vs = []
  | vs, (key, x) :: es => ∃ v rest, vs = (key, v) :: rest ∧ heap.Stands v x ∧ Heap.StandsObject heap rest es
end

mutual
theorem treeOf : ∀ (x : Variant) {v : Value}, heap.Stands v x → TreeOf heap.children (node v) x
  | .null, v, h => by
    rw [Heap.Stands] at h
    subst h
    rw [TreeOf]
    rfl
  | .bool _, v, h => by
    rw [Heap.Stands] at h
    subst h
    rw [TreeOf]
    rfl
  | .string _, v, h => by
    rw [Heap.Stands] at h
    subst h
    rw [TreeOf]
    rfl
  | .number d, v, h => by
    rw [Heap.Stands] at h
    rw [h, TreeOf]
    rfl
  | .array xs, v, h => by
    rw [Heap.Stands] at h
    rw [TreeOf]
    obtain ⟨ref, vs, rfl, href, hall⟩ := h
    refine Or.inr ⟨ref, vs.map node, rfl, ?_, treeOfArray xs hall⟩
    rw [Heap.children, href]
  | .object es, v, h => by
    rw [Heap.Stands] at h
    rw [TreeOf]
    obtain ⟨ref, entries, vs, rfl, href, hperm, hall⟩ := h
    refine Or.inr ⟨ref, vs.map fun e => node e.2, rfl, ?_, treeOfObject es hall⟩
    rw [Heap.children, href]
    exact hperm.map _

theorem treeOfArray : ∀ (xs : List Variant) {vs : List Value}, Heap.StandsArray heap vs xs →
    TreeOfArray heap.children (vs.map node) xs
  | [], vs, h => by
    rw [Heap.StandsArray] at h
    rw [h, TreeOfArray, List.map_nil]
  | x :: xs, vs, h => by
    rw [Heap.StandsArray] at h
    obtain ⟨v, rest, rfl, hv, hrest⟩ := h
    rw [TreeOfArray]
    exact ⟨_, _, rfl, treeOf x hv, treeOfArray xs hrest⟩

theorem treeOfObject : ∀ (es : List (String × Variant)) {vs : List (String × Value)}, Heap.StandsObject heap vs es →
    TreeOfObject heap.children (vs.map fun e => node e.2) es
  | [], vs, h => by
    rw [Heap.StandsObject] at h
    rw [h, TreeOfObject, List.map_nil]
  | (key, x) :: es, vs, h => by
    rw [Heap.StandsObject] at h
    obtain ⟨v, rest, rfl, hv, hrest⟩ := h
    rw [TreeOfObject]
    exact ⟨_, _, rfl, treeOf x hv, treeOfObject es hrest⟩
end

end JavaScan

/-! ## Graphs of both engines -/

section Graphs
variable (goHeap : GoScan.Heap) (javaHeap : JavaScan.Heap) (alike : GoScan.Value → JavaScan.Value → Prop)

/-- Values of one shape, whose members are alike. -/
def SameShape : GoScan.Value → JavaScan.Value → Prop
  | .nil, .null => True
  | .bool b, .bool b' => b = b'
  | .string s, .string s' => s = s'
  | .integer n, .number d => d = Binary64.ofInt n ∧ d.isFinite = true
  | .float64 d, .number d' => d = d'
  | .float32 d, .number d' => d = d'
  | .slice ptr len, .object ref => ∃ xs, javaHeap ref = .list xs ∧ List.Forall₂ alike (goHeap.elements ptr len) xs
  | .map ptr, .object ref => ∃ es entries, javaHeap ref = .map es ∧ entries.Perm (goHeap.entries ptr) ∧
      List.Forall₂ (fun e f => e.1 = f.1 ∧ alike e.2 f.2) entries es
  | _, _ => False

/-- The graphs of Go and of Java say the same, cycles included. -/
def Alike : Prop := ∀ v w, alike v w → SameShape goHeap javaHeap alike v w

variable {goHeap javaHeap alike}

theorem any_congr_of_forall₂ {α β : Type} {R : α → β → Prop} {p : α → Bool} {q : β → Bool} {xs : List α} {ys : List β}
    (h : List.Forall₂ R xs ys) (hpq : ∀ x y, R x y → p x = q y) : xs.any p = ys.any q := by
  induction h with
  | nil => rfl
  | cons hxy _ ih => rw [List.any_cons, List.any_cons, hpq _ _ hxy, ih]

theorem walk_slice (k ptr len : Nat) : walk goHeap.children (k + 1) (goHeap.node (.slice ptr len)) =
    (goHeap.elements ptr len).any fun e => walk goHeap.children k (goHeap.node e) := by
  rw [GoScan.Heap.node]
  split
  · next hlen =>
    rw [hlen]
    rfl
  · rw [walk, GoScan.Heap.children, List.any_map]
    rfl

theorem walk_map (k ptr : Nat) : walk goHeap.children (k + 1) (goHeap.node (.map ptr)) =
    (goHeap.entries ptr).any fun e => walk goHeap.children k (goHeap.node e.2) := by
  rw [GoScan.Heap.node]
  split
  · next hlen =>
    rw [List.length_eq_zero_iff.mp hlen]
    rfl
  · rw [walk, GoScan.Heap.children, List.any_map]
    rfl

theorem walk_alike (h : Alike goHeap javaHeap alike) (k : Nat) {v : GoScan.Value} {w : JavaScan.Value}
    (hvw : alike v w) : walk goHeap.children k (goHeap.node v) = walk javaHeap.children k (JavaScan.node w) := by
  induction k generalizing v w with
  | zero =>
    have hshape := h v w hvw
    rcases v with _ | _ | _ | _ | d | d | ⟨ptr, len⟩ | ptr <;> rcases w with _ | _ | _ | d' | ref <;>
      rw [SameShape] at hshape
    all_goals try exact hshape.elim
    all_goals try rfl
    · exact (congrArg (!·) hshape.2.symm : _)
    · rw [hshape]
      rfl
    · rw [hshape]
      rfl
    · rw [GoScan.Heap.node]
      split <;> rfl
    · rw [GoScan.Heap.node]
      split <;> rfl
  | succ k ih =>
    have hshape := h v w hvw
    rcases v with _ | _ | _ | _ | d | d | ⟨ptr, len⟩ | ptr <;> rcases w with _ | _ | _ | d' | ref <;>
      rw [SameShape] at hshape
    all_goals try exact hshape.elim
    all_goals try rfl
    · exact (congrArg (!·) hshape.2.symm : _)
    · rw [hshape]
      rfl
    · rw [hshape]
      rfl
    · obtain ⟨xs, href, hall⟩ := hshape
      rw [walk_slice, JavaScan.node, walk, JavaScan.Heap.children, href]
      dsimp only
      rw [List.any_map]
      exact any_congr_of_forall₂ hall fun x y hxy => ih hxy
    · obtain ⟨es, entries, href, hperm, hall⟩ := hshape
      rw [walk_map, JavaScan.node, walk, JavaScan.Heap.children, href, ← hperm.any_eq]
      dsimp only
      rw [List.any_map]
      exact any_congr_of_forall₂ hall fun x y hxy => ih hxy.2

end Graphs

/-! ## Verdicts -/

/-- The scans of Go and of Java answer as the walk of the value as a tree of bounded depth, alike on graphs that say
the same, and on trees as `contains_non_finite`. -/
theorem scans_as_walked {goHeap : GoScan.Heap} {javaHeap : JavaScan.Heap} (goRanges : goHeap.Ranges GoScan.Scanner)
    (javaRanges : javaHeap.Ranges JavaScan.Scanner) :
    (∀ v, GoScan.containsNonFinite goRanges v = walk goHeap.children 1000 (goHeap.node v) ∧
      (GoScan.containsNonFinite goRanges v = true ↔ Reaches goHeap.children 1000 0 (goHeap.node v))) ∧
    (∀ w, (JavaScan.containsNonFinite javaRanges {} w 0).1 = walk javaHeap.children 1000 (JavaScan.node w) ∧
      ((JavaScan.containsNonFinite javaRanges {} w 0).1 = true ↔
        Reaches javaHeap.children 1000 0 (JavaScan.node w))) ∧
    (∀ alike, Alike goHeap javaHeap alike → ∀ v w, alike v w →
      (JavaScan.containsNonFinite javaRanges {} w 0).1 = GoScan.containsNonFinite goRanges v) ∧
    (∀ v x, goHeap.Stands v x → GoScan.containsNonFinite goRanges v = x.containsNonFinite 0) ∧
    ∀ w x, javaHeap.Stands w x → (JavaScan.containsNonFinite javaRanges {} w 0).1 = x.containsNonFinite 0 := by
  have hgo := GoScan.containsNonFinite_eq goRanges
  have hjava := JavaScan.containsNonFinite_eq javaRanges
  refine ⟨fun v => ⟨hgo v, ?_⟩, fun w => ⟨hjava w, ?_⟩, fun alike halike v w hvw => ?_, fun v x hx => ?_, fun w x hx => ?_⟩
  · rw [hgo]
    exact DepthScan.walk_iff (Nat.zero_add _) _
  · rw [hjava]
    exact DepthScan.walk_iff (Nat.zero_add _) _
  · rw [hgo, hjava]
    exact (walk_alike halike _ hvw).symm
  · rw [hgo]
    exact walk_eq (GoScan.treeOf x hx)
  · rw [hjava]
    exact walk_eq (JavaScan.treeOf x hx)

/-- A slice of two elements: itself and NaN. -/
def selfSlice : GoScan.Heap where
  cell a := if a = 0 then .slice 0 2 else .float64 .nan
  entries _ := []

/-- A list of two elements: itself and NaN. -/
def selfList : JavaScan.Heap := fun _ => .list [.object 0, .number .nan]

/-- The loop over itself ends, and NaN is found after it. -/
theorem scans_as_walked_self :
    let goRanges : selfSlice.Ranges GoScan.Scanner := ⟨fun _ _ => [], fun _ _ => .refl _⟩
    let javaRanges : selfList.Ranges JavaScan.Scanner := ⟨fun _ _ => [], nofun⟩
    GoScan.containsNonFinite goRanges (.slice 0 2) = true ∧
      (JavaScan.containsNonFinite javaRanges {} (.object 0) 0).1 = GoScan.containsNonFinite goRanges (.slice 0 2) ∧
      GoScan.containsNonFinite goRanges .nil = Variant.null.containsNonFinite 0 := by
  intro goRanges javaRanges
  obtain ⟨hgo, -, halike, htree, -⟩ := scans_as_walked goRanges javaRanges
  refine ⟨(hgo _).2.mpr ?_, ?_, htree _ _ ?_⟩
  · exact .composite (by decide) (List.mem_cons_of_mem _ List.mem_cons_self) (.leaf 1)
  · refine halike (fun v w => v = .slice 0 2 ∧ w = .object 0 ∨ v = .float64 .nan ∧ w = .number .nan) ?_ _ _
      (Or.inl ⟨rfl, rfl⟩)
    rintro v w (⟨rfl, rfl⟩ | ⟨rfl, rfl⟩)
    · exact ⟨_, rfl, .cons (Or.inl ⟨rfl, rfl⟩) (.cons (Or.inr ⟨rfl, rfl⟩) .nil)⟩
    · exact rfl
  · rw [GoScan.Heap.Stands]

end Pineapple
