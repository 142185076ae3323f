import Mathlib.Data.List.GetD
import Mathlib.Data.List.TakeDrop
import Mathlib.Data.List.Nodup

/-! # In-place compaction and permutation

Two loops that overwrite an array while they still read it. Compaction moves every kept element down
to the next free slot; the permutation walks each cycle once, holding one element aside. Both are
shown to be what the loop with a second array computes: a filter, and a gather. -/

namespace InPlace
universe u
variable {α : Type u}

/-- `dst[w] = dst[i]`. -/
def copyWithin (xs : List α) (w i : Nat) : List α :=
  match xs[i]? with
  | some x => xs.set w x
  | none => xs

@[simp] theorem length_copyWithin (xs : List α) (w i : Nat) : (copyWithin xs w i).length = xs.length := by
  unfold copyWithin; split <;> simp

/-! ## Compaction -/

/-- The reads from index `i` on, with `write` slots filled so far. -/
def compactFrom (drop : List Bool) : (remaining i write : Nat) → List α → List α
  | 0, _, _, xs => xs
  | k + 1, i, write, xs =>
    if drop.getD i false then compactFrom drop k (i + 1) write xs
    else compactFrom drop k (i + 1) (write + 1) (if write = i then xs else copyWithin xs write i)

/-- Keep the slots not marked in `drop` and resize to `kept` slots. -/
def compact (dflt : α) (drop : List Bool) (kept : Nat) (xs : List α) : List α :=
  (compactFrom drop xs.length 0 0 xs).takeD kept dflt

@[simp] theorem length_compact (dflt : α) (drop : List Bool) (kept : Nat) (xs : List α) :
    (compact dflt drop kept xs).length = kept := by
  simp [compact]

/-- The elements a drop mask leaves. -/
def keep (drop : List Bool) (xs : List α) : List α :=
  ((xs.zip drop).filter fun p => !p.2).map Prod.fst

theorem keep_cons (b : Bool) (drop : List Bool) (x : α) (xs : List α) :
    keep (b :: drop) (x :: xs) = if b then keep drop xs else x :: keep drop xs := by
  cases b <;> simp [keep]

theorem copyWithin_append (pre junk suf : List α) (x : α) (h : junk ≠ []) :
    ∃ junk', junk'.length = junk.length ∧
      copyWithin (pre ++ junk ++ x :: suf) pre.length (pre.length + junk.length) = pre ++ [x] ++ junk' ++ suf := by
  obtain ⟨j, js, rfl⟩ : ∃ j js, junk = j :: js := by
    cases junk with
    | nil => exact absurd rfl h
    | cons j js => exact ⟨j, js, rfl⟩
  have hget : (pre ++ (j :: js) ++ x :: suf)[pre.length + (j :: js).length]? = some x := by
    rw [← List.length_append, List.getElem?_append_right (Nat.le_refl _)]
    simp
  refine ⟨js ++ [x], by simp, ?_⟩
  rw [copyWithin, hget]
  simp [List.set_append_right]

theorem compactFrom_append (drop : List Bool) (suf pre junk : List α) (d : List Bool)
    (hd : drop.drop (pre.length + junk.length) = d) (hlen : d.length = suf.length) :
    ∃ junk', compactFrom drop suf.length (pre.length + junk.length) pre.length (pre ++ junk ++ suf) =
      pre ++ keep d suf ++ junk' := by
  induction suf generalizing pre junk d with
  | nil => exact ⟨junk, by simp [compactFrom, keep]⟩
  | cons x suf ih =>
    obtain ⟨b, d, rfl⟩ : ∃ b d', d = b :: d' := by
      cases d with
      | nil => simp at hlen
      | cons b d => exact ⟨b, d, rfl⟩
    have hb : drop.getD (pre.length + junk.length) false = b := by
      rw [List.getD_eq_getElem?_getD, ← Nat.add_zero (pre.length + junk.length), ← List.getElem?_drop, hd]
      rfl
    have hd' : drop.drop (pre.length + junk.length + 1) = d := by
      rw [← List.drop_drop, hd]; rfl
    have hlen' : d.length = suf.length := by simpa using hlen
    rw [List.length_cons, compactFrom, hb, keep_cons]
    cases b with
    | true =>
      obtain ⟨junk', h⟩ := ih pre (junk ++ [x]) d (by simpa [Nat.add_assoc] using hd') hlen'
      refine ⟨junk', ?_⟩
      simpa [Nat.add_assoc] using h
    | false =>
      have hstep : ∃ junk₁, junk₁.length = junk.length ∧
          (if pre.length = pre.length + junk.length then pre ++ junk ++ x :: suf
            else copyWithin (pre ++ junk ++ x :: suf) pre.length (pre.length + junk.length)) =
          pre ++ [x] ++ junk₁ ++ suf := by
        by_cases hj : junk = []
        · subst hj; exact ⟨[], rfl, by simp⟩
        · rw [if_neg (by have := List.length_pos_iff.mpr hj; omega)]
          exact copyWithin_append pre junk suf x hj
      obtain ⟨junk₁, hlen₁, hstep⟩ := hstep
      have harith : (pre ++ [x]).length + junk₁.length = pre.length + junk.length + 1 := by simp; omega
      obtain ⟨junk', h⟩ := ih (pre ++ [x]) junk₁ d (by rw [harith]; exact hd') hlen'
      refine ⟨junk', ?_⟩
      rw [hstep]
      rw [harith] at h
      simpa using h

/-! ## Gathering -/

/-- The elements at the slots `idx`, in that order. -/
def gather (idx : List Nat) (xs : List α) : List α := idx.filterMap fun j => xs[j]?

theorem gather_eq_map {idx : List Nat} {xs : List α} (h : ∀ j ∈ idx, j < xs.length) :
    (gather idx xs).map some = idx.map fun j => xs[j]? := by
  induction idx with
  | nil => rfl
  | cons j idx ih =>
    have hj := h j List.mem_cons_self
    have ih := ih fun k hk => h k (List.mem_cons_of_mem _ hk)
    rw [gather] at ih
    rw [gather, List.filterMap_cons, List.getElem?_eq_getElem hj, List.map_cons, List.map_cons, ih,
      List.getElem?_eq_getElem hj]

theorem length_gather {idx : List Nat} {xs : List α} (h : ∀ j ∈ idx, j < xs.length) :
    (gather idx xs).length = idx.length := by
  simpa using congrArg List.length (gather_eq_map h)

theorem getElem?_gather {idx : List Nat} {xs : List α} (h : ∀ j ∈ idx, j < xs.length) (k : Nat) :
    (gather idx xs)[k]? = idx[k]?.bind (xs[·]?) := by
  have hk := congrArg (·[k]?) (gather_eq_map h)
  simp only [List.getElem?_map] at hk
  cases hi : idx[k]? with
  | none =>
    rw [hi] at hk
    simpa using hk
  | some j =>
    rw [hi] at hk
    have hj := h j (List.mem_of_getElem? hi)
    simp only [Option.map_some, List.getElem?_eq_getElem hj, Option.map_eq_some_iff] at hk
    obtain ⟨a, ha, hax⟩ := hk
    rw [ha, hax]
    simp [hj]

theorem gather_map {β : Type*} (g : α → β) (idx : List Nat) (xs : List α) :
    gather idx (xs.map g) = (gather idx xs).map g := by
  unfold gather
  rw [List.map_filterMap]
  exact List.filterMap_congr fun j _ => List.getElem?_map ..

/-- The slots a drop mask leaves. -/
def keptSlots (drop : List Bool) : List Nat := (List.range drop.length).filter fun j => !drop.getD j false

theorem lt_of_mem_keptSlots {drop : List Bool} {j : Nat} (h : j ∈ keptSlots drop) : j < drop.length := by
  simpa using (List.mem_filter.mp h).1

theorem keptSlots_cons (b : Bool) (drop : List Bool) :
    keptSlots (b :: drop) = (if b then [] else [0]) ++ (keptSlots drop).map (· + 1) := by
  rw [keptSlots, List.length_cons, List.range_succ_eq_map, List.filter_cons, List.filter_map]
  cases b <;> simp [keptSlots, Function.comp_def]

theorem keep_eq_gather (drop : List Bool) (xs : List α) (h : drop.length = xs.length) :
    keep drop xs = gather (keptSlots drop) xs := by
  induction drop generalizing xs with
  | nil => simp [keep, keptSlots, gather]
  | cons b drop ih =>
    obtain ⟨x, xs, rfl⟩ : ∃ x xs', xs = x :: xs' := by
      cases xs with
      | nil => simp at h
      | cons x xs => exact ⟨x, xs, rfl⟩
    have ih := ih xs (by simpa using h)
    rw [keep_cons, keptSlots_cons, ih]
    cases b <;> simp [gather, List.filterMap_map]

/-- Compaction in place gathers the slots it keeps, when `kept` is their number. -/
theorem compact_eq (dflt : α) (drop : List Bool) (kept : Nat) (xs : List α) (hlen : drop.length = xs.length)
    (hslots : (keptSlots drop).length = kept) : compact dflt drop kept xs = gather (keptSlots drop) xs := by
  rw [← keep_eq_gather drop xs hlen]
  have hkept : (keep drop xs).length = kept := by
    rw [keep_eq_gather drop xs hlen, length_gather fun j hj => hlen ▸ lt_of_mem_keptSlots hj, hslots]
  obtain ⟨junk, h⟩ := compactFrom_append drop xs [] [] drop rfl hlen
  rw [compact]
  simp only [List.length_nil, Nat.add_zero, List.nil_append] at h
  rw [h, List.takeD_eq_take _ (by simp [hkept]), ← hkept, List.take_left]

/-! ## Permutation by cycles -/

/-- Walk the cycle of `i` from `j` on: each slot takes its source's element, the last one `tmp`. -/
def followCycle (order : List Nat) (i : Nat) (tmp : α) : (fuel j : Nat) → List α × List Bool → List α × List Bool
  | 0, _, s => s
  | fuel + 1, j, (xs, visited) =>
    let src := order.getD j 0
    if src = i then (xs.set j tmp, visited.set j true)
    else followCycle order i tmp fuel src (copyWithin xs j src, visited.set j true)

/-- One round of the outer loop. -/
def reorderRound (order : List Nat) (i : Nat) (s : List α × List Bool) : List α × List Bool :=
  if s.2.getD i true then s
  else if order.getD i 0 = i then (s.1, s.2.set i true)
  else match s.1[i]? with
    | some tmp => followCycle order i tmp order.length i s
    | none => s

def reorder (order : List Nat) (xs : List α) : List α :=
  ((List.range order.length).foldl (fun s i => reorderRound order i s)
    (xs, List.replicate order.length false)).1

@[simp] theorem length_followCycle (order : List Nat) (i : Nat) (tmp : α) (fuel j : Nat) (s : List α × List Bool) :
    (followCycle order i tmp fuel j s).1.length = s.1.length := by
  induction fuel generalizing j s with
  | zero => rfl
  | succ fuel ih =>
    rw [followCycle]
    split
    · simp
    · rw [ih]; simp

@[simp] theorem length_reorderRound (order : List Nat) (i : Nat) (s : List α × List Bool) :
    (reorderRound order i s).1.length = s.1.length := by
  unfold reorderRound
  split
  · rfl
  · split
    · rfl
    · split <;> simp

@[simp] theorem length_reorder (order : List Nat) (xs : List α) : (reorder order xs).length = xs.length := by
  unfold reorder
  suffices H : ∀ (l : List Nat) (s : List α × List Bool),
      (l.foldl (fun s i => reorderRound order i s) s).1.length = s.1.length from H _ _
  intro l
  induction l with
  | nil => exact fun _ => rfl
  | cons a l ih => intro s; rw [List.foldl_cons, ih, length_reorderRound]

/-- The order names every slot once. -/
structure IsOrder (order : List Nat) : Prop where
  lt : ∀ j ∈ order, j < order.length
  nodup : order.Nodup

theorem IsOrder.getD_lt {order : List Nat} (h : IsOrder order) {j : Nat} (hj : j < order.length) :
    order.getD j 0 < order.length := by
  rw [List.getD_eq_getElem _ _ hj]
  exact h.lt _ (List.getElem_mem hj)

theorem IsOrder.getD_inj {order : List Nat} (h : IsOrder order) {j k : Nat} (hj : j < order.length)
    (hk : k < order.length) (he : order.getD j 0 = order.getD k 0) : j = k := by
  rw [List.getD_eq_getElem _ _ hj, List.getD_eq_getElem _ _ hk] at he
  exact (List.Nodup.getElem_inj_iff h.nodup).mp he

/-- Where the walk stands: the visited slots hold their final elements, the others still the
original ones, and the source of an unvisited slot is unvisited, the start `hole` of an open cycle apart. -/
structure WalkInv (order : List Nat) (orig : List α) (hole : Option Nat) (s : List α × List Bool) : Prop where
  len : s.1.length = order.length
  lenVisited : s.2.length = order.length
  done : ∀ x < order.length, s.2.getD x true = true → s.1[x]? = orig[order.getD x 0]?
  todo : ∀ x < order.length, s.2.getD x true = false → s.1[x]? = orig[x]?
  source : ∀ x < order.length, some (order.getD x 0) ≠ hole → s.2.getD (order.getD x 0) true = true →
    s.2.getD x true = true

theorem getD_set_visited {visited : List Bool} {j x : Nat} (hj : j < visited.length) :
    (visited.set j true).getD x true = if x = j then true else visited.getD x true := by
  rw [List.getD_eq_getElem?_getD, List.getElem?_set, List.getD_eq_getElem?_getD]
  by_cases hx : x = j
  · subst hx; simp [hj]
  · rw [if_neg (Ne.symm hx), if_neg hx]

/-- Marking one slot lowers the number of unmarked ones. -/
theorem count_set_visited {visited : List Bool} {j : Nat} (hj : j < visited.length)
    (h : visited.getD j true = false) : (visited.set j true).count false + 1 = visited.count false := by
  rw [List.getD_eq_getElem _ _ hj] at h
  rw [List.count_set hj]
  have hpos : 0 < visited.count false := List.count_pos_iff.mpr (h ▸ List.getElem_mem hj)
  simp [h]
  omega

theorem getElem?_copyWithin {xs : List α} {w i : Nat} (hw : w < xs.length) (hi : i < xs.length) (x : Nat) :
    (copyWithin xs w i)[x]? = if x = w then xs[i]? else xs[x]? := by
  rw [copyWithin, List.getElem?_eq_getElem hi]
  dsimp only
  rw [List.getElem?_set]
  by_cases hx : x = w
  · subst hx; simp [hw]
  · rw [if_neg (Ne.symm hx), if_neg hx]

/-- Closing or extending the walk by slot `j`, whose own place on the cycle is known. -/
theorem WalkInv.visit {order : List Nat} {orig : List α} {i j : Nat} {s : List α × List Bool} {xs : List α}
    {hole : Option Nat} (ho : IsOrder order) (h : WalkInv order orig (some i) s) (hj : j < order.length)
    (hpred : j = i ∨ ∃ p < order.length, s.2.getD p true = true ∧ order.getD p 0 = j)
    (hhole : hole = some i ∨ order.getD j 0 = i) (hlen : xs.length = order.length)
    (hxs : ∀ x, xs[x]? = if x = j then orig[order.getD j 0]? else s.1[x]?) :
    WalkInv order orig hole (xs, s.2.set j true) := by
  have hjv : j < s.2.length := h.lenVisited ▸ hj
  refine ⟨hlen, by simpa using h.lenVisited, ?_, ?_, ?_⟩
  · intro x hx hv
    rw [hxs]
    split
    · next hxj => rw [hxj]
    · next hxj =>
      rw [getD_set_visited hjv, if_neg hxj] at hv
      exact h.done x hx hv
  · intro x hx hv
    rw [getD_set_visited hjv] at hv
    split at hv
    · exact absurd hv (by simp)
    · next hxj => rw [hxs, if_neg hxj]; exact h.todo x hx hv
  · intro x hx hne hv
    rw [getD_set_visited hjv] at hv ⊢
    split
    · rfl
    · next hxj =>
      -- the source of another slot is not the start: only `j` may point there
      have hsrc : order.getD x 0 ≠ i := by
        intro hxi
        rcases hhole with hhole | hhole
        · exact hne (by rw [hhole, hxi])
        · exact hxj (ho.getD_inj hx hj (hxi.trans hhole.symm))
      split at hv
      · next hxj' =>
        rcases hpred with hpred | ⟨p, hp, hpv, hpj⟩
        · exact absurd (hxj'.trans hpred) hsrc
        · rw [ho.getD_inj hx hp (hxj'.trans hpj.symm)]; exact hpv
      · exact h.source x hx (by simpa using hsrc) hv

theorem followCycle_spec {order : List Nat} {orig : List α} {i : Nat} {tmp : α} (ho : IsOrder order)
    (htmp : orig[i]? = some tmp) (fuel j : Nat) (s : List α × List Bool)
    (h : WalkInv order orig (some i) s) (hj : j < order.length) (hv : s.2.getD j true = false)
    (hpred : j = i ∨ s.2.getD i true = true ∧ ∃ p < order.length, s.2.getD p true = true ∧ order.getD p 0 = j)
    (hfuel : s.2.count false ≤ fuel) :
    let s' := followCycle order i tmp fuel j s
    WalkInv order orig none s' ∧ s'.2.getD i true = true ∧
      ∀ x, s.2.getD x true = true → s'.2.getD x true = true := by
  have hjv : j < s.2.length := h.lenVisited ▸ hj
  have hcount := count_set_visited hjv hv
  have hpred' := hpred.imp_right And.right
  induction fuel generalizing j s with
  | zero => omega
  | succ fuel ih =>
    have hmono : ∀ x, s.2.getD x true = true → (s.2.set j true).getD x true = true := by
      intro x hx
      rw [getD_set_visited hjv]
      split
      · rfl
      · exact hx
    have hiv : (s.2.set j true).getD i true = true := by
      rw [getD_set_visited hjv]
      rcases hpred with rfl | ⟨hi, -⟩
      · rw [if_pos rfl]
      · split
        · rfl
        · exact hi
    have hsrclt := ho.getD_lt hj
    rw [followCycle]
    split
    · next hsrc =>
      refine ⟨?_, hiv, hmono⟩
      refine h.visit ho hj hpred' (Or.inr hsrc) (by simpa using h.len) fun x => ?_
      rw [List.getElem?_set, hsrc, htmp]
      by_cases hx : x = j
      · subst hx; rw [if_pos rfl, if_pos rfl, if_pos (h.len ▸ hj)]
      · rw [if_neg (Ne.symm hx), if_neg hx]
    · next hsrc =>
      have hsrcv : s.2.getD (order.getD j 0) true = false := by
        by_contra hc
        have := h.source j hj (by simpa using hsrc) (by simpa using hc)
        rw [hv] at this
        exact absurd this (by simp)
      have hne : order.getD j 0 ≠ j := by
        intro he
        rcases hpred' with hji | ⟨p, hp, hpv, hpj⟩
        · exact hsrc (he.trans hji)
        · rw [ho.getD_inj hp hj (hpj.trans he.symm), hv] at hpv
          exact absurd hpv (by simp)
      have hinv : WalkInv order orig (some i) (copyWithin s.1 j (order.getD j 0), s.2.set j true) := by
        refine h.visit ho hj hpred' (Or.inl rfl) (by simpa using h.len) fun x => ?_
        rw [getElem?_copyWithin (h.len ▸ hj) (h.len ▸ hsrclt), h.todo _ hsrclt hsrcv]
      have hv' : (s.2.set j true).getD (order.getD j 0) true = false := by
        rw [getD_set_visited hjv, if_neg hne, hsrcv]
      have hjv' : order.getD j 0 < (s.2.set j true).length := by
        rw [List.length_set, h.lenVisited]; exact hsrclt
      have hpj : (s.2.set j true).getD j true = true := by rw [getD_set_visited hjv, if_pos rfl]
      have := ih (order.getD j 0) (copyWithin s.1 j (order.getD j 0), s.2.set j true) hinv hsrclt hv'
        (Or.inr ⟨hiv, j, hj, hpj, rfl⟩) (by dsimp only; omega) hjv' (count_set_visited hjv' hv')
        (Or.inr ⟨j, hj, hpj, rfl⟩)
      exact ⟨this.1, this.2.1, fun x hx => this.2.2 x (hmono x hx)⟩

/-- A walk that is between two cycles: no hole is open. -/
theorem WalkInv.round {order : List Nat} {orig : List α} {i : Nat} {s : List α × List Bool} (ho : IsOrder order)
    (hi : i < order.length) (h : WalkInv order orig none s) :
    let s' := reorderRound order i s
    WalkInv order orig none s' ∧ s'.2.getD i true = true ∧
      ∀ x, s.2.getD x true = true → s'.2.getD x true = true := by
  have hopen : WalkInv order orig (some i) s :=
    ⟨h.len, h.lenVisited, h.done, h.todo, fun x hx _ => h.source x hx (by simp)⟩
  have hiv : i < s.2.length := h.lenVisited ▸ hi
  dsimp only
  rw [reorderRound]
  split
  · next hv => exact ⟨h, hv, fun _ hx => hx⟩
  · next hv =>
    have hv : s.2.getD i true = false := by simpa using hv
    split
    · next hfix =>
      refine ⟨?_, by rw [getD_set_visited hiv, if_pos rfl], ?_⟩
      · refine hopen.visit ho hi (Or.inl rfl) (Or.inr hfix) h.len fun x => ?_
        rw [hfix]
        split
        · next hx => rw [hx]; exact h.todo i hi hv
        · rfl
      · intro x hx
        rw [getD_set_visited hiv]
        split
        · rfl
        · exact hx
    · split
      · next tmp htmp =>
        rw [h.todo i hi hv] at htmp
        refine followCycle_spec ho htmp _ i s hopen hi hv (Or.inl rfl) ?_
        exact h.lenVisited ▸ List.count_le_length
      · next hnone =>
        rw [List.getElem?_eq_none_iff, h.len] at hnone
        omega

/-- The in-place permutation gathers: slot `x` ends with what slot `order[x]` held. -/
theorem getElem?_reorder {order : List Nat} {orig : List α} (ho : IsOrder order) (hlen : orig.length = order.length)
    {x : Nat} (hx : x < order.length) : (reorder order orig)[x]? = orig[order.getD x 0]? := by
  have H : ∀ (k i : Nat) (s : List α × List Bool), i + k = order.length → WalkInv order orig none s →
      (∀ x < i, s.2.getD x true = true) →
      let s' := (List.range' i k).foldl (fun s i => reorderRound order i s) s
      WalkInv order orig none s' ∧ ∀ x < order.length, s'.2.getD x true = true := by
    intro k
    induction k with
    | zero => exact fun i s hik h hv => ⟨h, fun x hx => hv x (by omega)⟩
    | succ k ih =>
      intro i s hik h hv
      obtain ⟨h', hi', hmono⟩ := WalkInv.round ho (by omega : i < order.length) h
      refine ih (i + 1) (reorderRound order i s) (by omega) h' fun x hx => ?_
      rcases Nat.lt_succ_iff_lt_or_eq.mp hx with hx | rfl
      · exact hmono x (hv x hx)
      · exact hi'
  have hstart : WalkInv order orig none (orig, List.replicate order.length false) := by
    refine ⟨hlen, by simp, ?_, fun _ _ _ => rfl, ?_⟩
    · intro x hx hv
      rw [List.getD_eq_getElem _ _ (by simpa using hx)] at hv
      simp at hv
    · intro x hx _ hv
      rw [List.getD_eq_getElem _ _ (by simpa using ho.getD_lt hx)] at hv
      simp at hv
  obtain ⟨h, hv⟩ := H order.length 0 _ (Nat.zero_add _) hstart (fun x hx => absurd hx (Nat.not_lt_zero x))
  rw [reorder, List.range_eq_range']
  exact h.done x hx (hv x hx)

theorem reorder_eq {order : List Nat} {orig : List α} (ho : IsOrder order) (hlen : orig.length = order.length) :
    reorder order orig = gather order orig := by
  have hlt : ∀ j ∈ order, j < orig.length := fun j hj => hlen ▸ ho.lt j hj
  apply List.ext_getElem?
  intro x
  rw [getElem?_gather hlt]
  by_cases hx : x < order.length
  · rw [getElem?_reorder ho hlen hx, List.getElem?_eq_getElem hx, List.getD_eq_getElem _ _ hx]
    rfl
  · rw [List.getElem?_eq_none (by rw [length_reorder]; omega), List.getElem?_eq_none (l := order) (by omega)]
    rfl

/-! ## Two arrays and one buffer of marks

The walk over two arrays at once, with a buffer that its caller keeps: it clears the marks first, so what the
buffer held does not matter. -/

universe v
variable {β : Type v}

/-- The first `n` marks cleared, in a buffer that is grown when it is shorter. -/
def clearMarks (n : Nat) (visited : List Bool) : List Bool := List.replicate n false ++ visited.drop n

def followCycleBoth (order : List Nat) (i : Nat) (tmp : α) (tmp' : β) :
    (fuel j : Nat) → List α × List β × List Bool → List α × List β × List Bool
  | 0, _, s => s
  | fuel + 1, j, (xs, ys, visited) =>
    let src := order.getD j 0
    if src = i then (xs.set j tmp, ys.set j tmp', visited.set j true)
    else followCycleBoth order i tmp tmp' fuel src (copyWithin xs j src, copyWithin ys j src, visited.set j true)

def reorderBothRound (order : List Nat) (i : Nat) (s : List α × List β × List Bool) : List α × List β × List Bool :=
  if s.2.2.getD i true then s
  else if order.getD i 0 = i then (s.1, s.2.1, s.2.2.set i true)
  else match s.1[i]?, s.2.1[i]? with
    | some tmp, some tmp' => followCycleBoth order i tmp tmp' order.length i s
    | _, _ => s

/-- The two arrays permuted, and the buffer as the walk leaves it. -/
def reorderBoth (order : List Nat) (xs : List α) (ys : List β) (visited : List Bool) :
    List α × List β × List Bool :=
  (List.range order.length).foldl (fun s i => reorderBothRound order i s)
    (xs, ys, clearMarks order.length visited)

/-- The state of the double walk is that of two single ones that have made the same marks. -/
structure BothInv (s : List α × List β × List Bool) (a : List α × List Bool) (b : List β × List Bool) : Prop where
  left : s.1 = a.1
  right : s.2.1 = b.1
  marks : s.2.2 = a.2
  same : a.2 = b.2

theorem BothInv.followCycle {order : List Nat} {i : Nat} {tmp : α} {tmp' : β} (fuel j : Nat)
    {s : List α × List β × List Bool} {a : List α × List Bool} {b : List β × List Bool} (h : BothInv s a b) :
    BothInv (followCycleBoth order i tmp tmp' fuel j s) (InPlace.followCycle order i tmp fuel j a)
      (InPlace.followCycle order i tmp' fuel j b) := by
  induction fuel generalizing j s a b with
  | zero => exact h
  | succ fuel ih =>
    obtain ⟨xs, ys, visited⟩ := s
    obtain ⟨xs', marks⟩ := a
    obtain ⟨ys', marks'⟩ := b
    obtain ⟨rfl, rfl, rfl, rfl⟩ := h
    simp only [followCycleBoth, InPlace.followCycle]
    split
    · exact ⟨rfl, rfl, rfl, rfl⟩
    · exact ih _ ⟨rfl, rfl, rfl, rfl⟩

theorem BothInv.round {order : List Nat} {i : Nat} {s : List α × List β × List Bool} {a : List α × List Bool}
    {b : List β × List Bool} (h : BothInv s a b) (ha : i < a.1.length) (hb : i < b.1.length) :
    BothInv (reorderBothRound order i s) (reorderRound order i a) (reorderRound order i b) := by
  unfold reorderBothRound reorderRound
  rw [h.left, h.right, h.marks, ← h.same, List.getElem?_eq_getElem ha, List.getElem?_eq_getElem hb]
  split
  · exact h
  · split
    · exact ⟨rfl, rfl, rfl, rfl⟩
    · exact h.followCycle _ _

theorem length_followCycleBoth (order : List Nat) (i : Nat) (tmp : α) (tmp' : β) (fuel j : Nat)
    (s : List α × List β × List Bool) :
    (followCycleBoth order i tmp tmp' fuel j s).1.length = s.1.length ∧
      (followCycleBoth order i tmp tmp' fuel j s).2.1.length = s.2.1.length := by
  induction fuel generalizing j s with
  | zero => exact ⟨rfl, rfl⟩
  | succ fuel ih =>
    rw [followCycleBoth]
    split
    · exact ⟨List.length_set, List.length_set⟩
    · obtain ⟨hxs, hys⟩ := ih (order.getD j 0) (copyWithin s.1 j (order.getD j 0),
        copyWithin s.2.1 j (order.getD j 0), s.2.2.set j true)
      exact ⟨hxs.trans (length_copyWithin ..), hys.trans (length_copyWithin ..)⟩

theorem length_reorderBothRound (order : List Nat) (i : Nat) (s : List α × List β × List Bool) :
    (reorderBothRound order i s).1.length = s.1.length ∧
      (reorderBothRound order i s).2.1.length = s.2.1.length := by
  unfold reorderBothRound
  split
  · exact ⟨rfl, rfl⟩
  · split
    · exact ⟨rfl, rfl⟩
    · split
      · exact length_followCycleBoth ..
      · exact ⟨rfl, rfl⟩

/-- No walk changes a length, on whatever order. -/
theorem length_reorderBoth (order : List Nat) (xs : List α) (ys : List β) (visited : List Bool) :
    (reorderBoth order xs ys visited).1.length = xs.length ∧
      (reorderBoth order xs ys visited).2.1.length = ys.length := by
  unfold reorderBoth
  suffices H : ∀ (l : List Nat) (s : List α × List β × List Bool),
      (l.foldl (fun s i => reorderBothRound order i s) s).1.length = s.1.length ∧
        (l.foldl (fun s i => reorderBothRound order i s) s).2.1.length = s.2.1.length from H _ _
  intro l
  induction l with
  | nil => exact fun _ => ⟨rfl, rfl⟩
  | cons i l ih =>
    intro s
    obtain ⟨hxs, hys⟩ := ih (reorderBothRound order i s)
    obtain ⟨hxs', hys'⟩ := length_reorderBothRound order i s
    exact ⟨hxs.trans hxs', hys.trans hys'⟩

theorem length_followCycle_marks (order : List Nat) (i : Nat) (tmp : α) (fuel j : Nat) (s : List α × List Bool) :
    (followCycle order i tmp fuel j s).2.length = s.2.length := by
  induction fuel generalizing j s with
  | zero => rfl
  | succ fuel ih =>
    rw [followCycle]
    split
    · exact List.length_set
    · rw [ih]
      exact List.length_set

theorem length_reorderRound_marks (order : List Nat) (i : Nat) (s : List α × List Bool) :
    (reorderRound order i s).2.length = s.2.length := by
  unfold reorderRound
  split
  · rfl
  · split
    · exact List.length_set
    · split
      · exact length_followCycle_marks ..
      · rfl

theorem clearMarks_eq {n : Nat} {visited : List Bool} (h : visited.length ≤ n) :
    clearMarks n visited = List.replicate n false := by
  unfold clearMarks
  rw [List.drop_eq_nil_of_le h, List.append_nil]

/-- Whatever the buffer held, both arrays are permuted as each would be alone. -/
theorem reorderBoth_eq {order : List Nat} {xs : List α} {ys : List β} {visited : List Bool}
    (hxs : xs.length = order.length) (hys : ys.length = order.length) (hvisited : visited.length ≤ order.length) :
    (reorderBoth order xs ys visited).1 = reorder order xs ∧
      (reorderBoth order xs ys visited).2.1 = reorder order ys ∧
      (reorderBoth order xs ys visited).2.2.length = order.length := by
  have H : ∀ (l : List Nat) (s : List α × List β × List Bool) (a : List α × List Bool) (b : List β × List Bool),
      (∀ i ∈ l, i < order.length) → BothInv s a b → a.1.length = order.length → b.1.length = order.length →
      BothInv (l.foldl (fun s i => reorderBothRound order i s) s) (l.foldl (fun s i => reorderRound order i s) a)
        (l.foldl (fun s i => reorderRound order i s) b) ∧
      (l.foldl (fun s i => reorderRound order i s) a).2.length = a.2.length := by
    intro l
    induction l with
    | nil => exact fun s a b _ h _ _ => ⟨h, rfl⟩
    | cons i l ih =>
      intro s a b hl h ha hb
      have hi := hl i List.mem_cons_self
      obtain ⟨hinv, hlen⟩ := ih (reorderBothRound order i s) (reorderRound order i a) (reorderRound order i b)
        (fun k hk => hl k (List.mem_cons_of_mem _ hk)) (h.round (ha ▸ hi) (hb ▸ hi))
        ((length_reorderRound ..).trans ha) ((length_reorderRound ..).trans hb)
      exact ⟨hinv, hlen.trans (length_reorderRound_marks ..)⟩
  have hclear := clearMarks_eq hvisited
  obtain ⟨hinv, hlen⟩ := H (List.range order.length) (xs, ys, clearMarks order.length visited)
    (xs, List.replicate order.length false) (ys, List.replicate order.length false) (fun i hi => List.mem_range.mp hi)
    ⟨rfl, rfl, hclear, rfl⟩ hxs hys
  refine ⟨hinv.left, hinv.right, ?_⟩
  unfold reorderBoth
  rw [hinv.marks, hlen, List.length_replicate]

end InPlace
