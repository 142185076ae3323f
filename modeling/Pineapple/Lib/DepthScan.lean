import Mathlib.Data.List.Perm.Basic

/-! # Depth-bounded search with remembered depths

A graph of composites with leaves, some of them bad. The search goes through composites above a bound of depth only
and remembers each with the shallowest depth it was entered at; reached again no shallower, it is skipped. -/

namespace DepthScan

universe u v w
variable {ι : Type u} {μ : Type v} {α : Type w}

inductive Vertex (ι : Type u) where
  | leaf (bad : Bool)
  | composite (id : ι)

/-- A bad leaf is reached through composites all above the bound. -/
inductive Reaches (children : ι → List (Vertex ι)) (bound : Nat) : Nat → Vertex ι → Prop
  | leaf (depth : Nat) : Reaches children bound depth (.leaf true)
  | composite {depth : Nat} {id : ι} {child : Vertex ι} : depth < bound → child ∈ children id →
      Reaches children bound (depth + 1) child → Reaches children bound depth (.composite id)

/-- The walk of the graph as a tree, with so many levels left. -/
def walk (children : ι → List (Vertex ι)) : Nat → Vertex ι → Bool
  | _, .leaf bad => bad
  | 0, .composite _ => false
  | k + 1, .composite id => (children id).any (walk children k)

/-- A loop that stops at the first element that answers yes. -/
def scanEach (scan : μ → α → Bool × μ) : μ → List α → Bool × μ
  | m, [] => (false, m)
  | m, x :: xs =>
    match scan m x with
    | (true, m) => (true, m)
    | (false, m) => scanEach scan m xs

def scan (enter : μ → ι → Nat → Option μ) (order : μ → ι → List (Vertex ι)) (bound : Nat) : Nat → μ → Vertex ι → Bool × μ
  | _, m, .leaf bad => (bad, m)
  | 0, m, .composite _ => (false, m)
  | k + 1, m, .composite id =>
    match enter m id (bound - (k + 1)) with
    | none => (false, m)
    | some m => scanEach (scan enter order bound k) m (order m id)

/-- What entering composites keeps of them. -/
structure Memo (find : μ → ι → Option Nat) (enter : μ → ι → Nat → Option μ) : Prop where
  skip : ∀ {m id depth}, enter m id depth = none → ∃ d ≤ depth, find m id = some d
  shallower : ∀ {m id depth m'}, enter m id depth = some m' → ∀ d, find m id = some d → depth < d
  entered : ∀ {m id depth m'}, enter m id depth = some m' → find m' id = some depth
  others : ∀ {m id depth m'}, enter m id depth = some m' → ∀ id', id' ≠ id → find m' id' = find m id'

theorem scanEach_map {β : Type*} {scan : μ → α → Bool × μ} {f : β → α} {m : μ} {xs : List β} :
    scanEach scan m (xs.map f) = scanEach (fun m x => scan m (f x)) m xs := by
  induction xs generalizing m with
  | nil => rfl
  | cons x xs ih =>
    rw [List.map_cons, scanEach, scanEach]
    simp only [ih]

variable {children : ι → List (Vertex ι)} {bound : Nat}

theorem walk_iff {k depth : Nat} (h : depth + k = bound) (v : Vertex ι) :
    walk children k v = true ↔ Reaches children bound depth v := by
  induction k generalizing depth v with
  | zero =>
    rcases v with bad | id
    · constructor
      · rintro rfl
        exact .leaf depth
      · rintro ⟨⟩
        rfl
    · constructor
      · rintro ⟨⟩
      · rintro (_ | ⟨hlt, _, _⟩)
        omega
  | succ k ih =>
    rcases v with bad | id
    · constructor
      · rintro rfl
        exact .leaf depth
      · rintro ⟨⟩
        rfl
    · rw [walk, List.any_eq_true]
      constructor
      · rintro ⟨child, hmem, hchild⟩
        exact .composite (by omega) hmem ((ih (by omega) child).mp hchild)
      · rintro (_ | ⟨_, hmem, hchild⟩)
        exact ⟨_, hmem, (ih (by omega) _).mpr hchild⟩

variable {find : μ → ι → Option Nat} {enter : μ → ι → Nat → Option μ} {order : μ → ι → List (Vertex ι)}
variable {m m' m'' : μ} {depth : Nat} {v : Vertex ι}

/-- Nothing bad is left to find at a node reached at this depth, once what is remembered is closed. -/
def Handled (find : μ → ι → Option Nat) (bound : Nat) (m : μ) (depth : Nat) : Vertex ι → Prop
  | .leaf bad => bad = false
  | .composite id => bound ≤ depth ∨ ∃ d ≤ depth, find m id = some d

/-- The children of every remembered composite that is not being scanned are handled. -/
def Closed (find : μ → ι → Option Nat) (children : ι → List (Vertex ι)) (bound : Nat) (m : μ) (scanning : List ι) : Prop :=
  ∀ id d, find m id = some d → id ∉ scanning → ∀ child ∈ children id, Handled find bound m (d + 1) child

/-- What is remembered only gets shallower, and by depths from `depth` on. -/
def Refines (find : μ → ι → Option Nat) (depth : Nat) (m m' : μ) : Prop :=
  ∀ id, find m' id = find m id ∨ ∃ d, find m' id = some d ∧ depth ≤ d ∧ ∀ e, find m id = some e → d < e

theorem Refines.refl : Refines find depth m m := fun _ => Or.inl rfl

theorem Refines.trans (h : Refines find depth m m') (h' : Refines find depth m' m'') : Refines find depth m m'' := by
  intro id
  rcases h' id with heq' | ⟨d', hfind', hle', hlt'⟩
  · rcases h id with heq | ⟨d, hfind, hle, hlt⟩
    · exact Or.inl (heq'.trans heq)
    · exact Or.inr ⟨d, heq'.trans hfind, hle, hlt⟩
  · refine Or.inr ⟨d', hfind', hle', fun e he => ?_⟩
    rcases h id with heq | ⟨d, hfind, -, hlt⟩
    · exact hlt' e (heq.trans he)
    · exact Nat.lt_trans (hlt' d hfind) (hlt e he)

theorem Refines.mono {depth' : Nat} (h : Refines find depth' m m') (hle : depth ≤ depth') : Refines find depth m m' := by
  intro id
  rcases h id with heq | ⟨d, hfind, hd, hlt⟩
  · exact Or.inl heq
  · exact Or.inr ⟨d, hfind, Nat.le_trans hle hd, hlt⟩

/-- A depth above the new ones is kept. -/
theorem Refines.kept {id : ι} {d : Nat} (h : Refines find depth m m') (hfind : find m id = some d) (hlt : d < depth) :
    find m' id = some d := by
  rcases h id with heq | ⟨d', _, hle, hd⟩
  · exact heq.trans hfind
  · have := hd d hfind
    omega

theorem Handled.mono (h : Handled find bound m depth v) {depth' : Nat} (hle : depth ≤ depth') :
    Handled find bound m depth' v := by
  rcases v with bad | id
  · exact h
  · rcases h with h | ⟨d, hd, hfind⟩
    · exact Or.inl (Nat.le_trans h hle)
    · exact Or.inr ⟨d, Nat.le_trans hd hle, hfind⟩

theorem Handled.refines {from' : Nat} (h : Handled find bound m depth v) (hm : Refines find from' m m') :
    Handled find bound m' depth v := by
  rcases v with bad | id
  · exact h
  · rcases h with h | ⟨d, hd, hfind⟩
    · exact Or.inl h
    · rcases hm id with heq | ⟨d', hfind', _, hlt⟩
      · exact Or.inr ⟨d, hd, heq.trans hfind⟩
      · exact Or.inr ⟨d', Nat.le_trans (Nat.le_of_lt (hlt d hfind)) hd, hfind'⟩

/-- A closed memory hides nothing. -/
theorem Closed.unreached (hclosed : Closed find children bound m []) (h : Handled find bound m depth v) :
    ¬ Reaches children bound depth v := by
  intro hr
  induction hr with
  | leaf => cases h
  | composite hlt hmem _ ih =>
    rcases h with h | ⟨d, hd, hfind⟩
    · omega
    · exact ih ((hclosed _ d hfind List.not_mem_nil _ hmem).mono (by omega))

/-- A scan that answers no: it leaves the memory closed and its node handled. -/
structure Scanned (find : μ → ι → Option Nat) (children : ι → List (Vertex ι)) (bound depth : Nat) (scanning : List ι)
    (m m' : μ) (vs : List (Vertex ι)) : Prop where
  refines : Refines find depth m m'
  closed : Closed find children bound m' scanning
  handled : ∀ v ∈ vs, Handled find bound m' depth v

variable {scanning : List ι}

theorem scanEach_scanned {scan : μ → Vertex ι → Bool × μ}
    (hscan : ∀ m m' v, Closed find children bound m scanning → (∀ id ∈ scanning, ∃ d < depth, find m id = some d) →
      scan m v = (false, m') → Scanned find children bound depth scanning m m' [v])
    {vs : List (Vertex ι)} (hclosed : Closed find children bound m scanning)
    (hopen : ∀ id ∈ scanning, ∃ d < depth, find m id = some d) (h : scanEach scan m vs = (false, m')) :
    Scanned find children bound depth scanning m m' vs := by
  induction vs generalizing m with
  | nil =>
    cases h
    exact ⟨.refl, hclosed, fun _ hv => absurd hv List.not_mem_nil⟩
  | cons v vs ih =>
    rw [scanEach] at h
    split at h
    · cases h
    · next m₁ hv =>
      have hfirst := hscan m m₁ v hclosed hopen hv
      have hopen₁ : ∀ id ∈ scanning, ∃ d < depth, find m₁ id = some d := fun id hid => by
        obtain ⟨d, hlt, hfind⟩ := hopen id hid
        exact ⟨d, hlt, hfirst.refines.kept hfind hlt⟩
      have hrest := ih hfirst.closed hopen₁ h
      refine ⟨hfirst.refines.trans hrest.refines, hrest.closed, fun x hx => ?_⟩
      rcases List.mem_cons.mp hx with rfl | hx
      · exact (hfirst.handled x List.mem_cons_self).refines hrest.refines
      · exact hrest.handled x hx

theorem scan_scanned (hmemo : Memo find enter) (horder : ∀ m id, (order m id).Perm (children id)) {k : Nat}
    (hk : depth + k = bound) (hclosed : Closed find children bound m scanning)
    (hopen : ∀ id ∈ scanning, ∃ d < depth, find m id = some d) (h : scan enter order bound k m v = (false, m')) :
    Scanned find children bound depth scanning m m' [v] := by
  induction k generalizing m m' depth v scanning with
  | zero =>
    rcases v with bad | id
    · cases h
      exact ⟨.refl, hclosed, fun v hv => by rw [List.mem_singleton.mp hv]; rfl⟩
    · cases h
      exact ⟨.refl, hclosed, fun v hv => by rw [List.mem_singleton.mp hv]; exact Or.inl (by omega)⟩
  | succ k ih =>
    rcases v with bad | id
    · cases h
      exact ⟨.refl, hclosed, fun v hv => by rw [List.mem_singleton.mp hv]; rfl⟩
    · rw [scan, show bound - (k + 1) = depth by omega] at h
      split at h
      · next henter =>
        cases h
        exact ⟨.refl, hclosed, fun v hv => by rw [List.mem_singleton.mp hv]; exact Or.inr (hmemo.skip henter)⟩
      · next m₁ henter =>
        have hnew := hmemo.entered henter
        have hrefines : Refines find depth m m₁ := fun id' => by
          by_cases hid : id' = id
          · exact Or.inr ⟨depth, hid ▸ hnew, Nat.le_refl _, fun e he => hmemo.shallower henter e (hid ▸ he)⟩
          · exact Or.inl (hmemo.others henter id' hid)
        -- the composite itself stays open until its children are done
        have hclosed₁ : Closed find children bound m₁ (id :: scanning) := fun id' d hfind hno child hchild => by
          have hne : id' ≠ id := fun h => hno (h ▸ List.mem_cons_self)
          rw [hmemo.others henter id' hne] at hfind
          exact (hclosed id' d hfind (fun h => hno (List.mem_cons_of_mem _ h)) child hchild).refines hrefines
        have hopen₁ : ∀ id' ∈ id :: scanning, ∃ d < depth + 1, find m₁ id' = some d := fun id' hid => by
          rcases List.mem_cons.mp hid with rfl | hid
          · exact ⟨depth, Nat.lt_succ_self _, hnew⟩
          · obtain ⟨d, hlt, hfind⟩ := hopen id' hid
            exact ⟨d, by omega, hrefines.kept hfind hlt⟩
        have hall := scanEach_scanned (fun m m' v hc ho hs => ih (by omega) hc ho hs) hclosed₁ hopen₁ h
        have hkept := hall.refines.kept hnew (Nat.lt_succ_self _)
        refine ⟨hrefines.trans (hall.refines.mono (Nat.le_succ _)), fun id' d hfind hno child hchild => ?_,
          fun v hv => by rw [List.mem_singleton.mp hv]; exact Or.inr ⟨depth, Nat.le_refl _, hkept⟩⟩
        by_cases hid : id' = id
        · subst hid
          obtain rfl : depth = d := Option.some.inj (hkept.symm.trans hfind)
          exact hall.handled child ((horder m₁ id').mem_iff.mpr hchild)
        · refine hall.closed id' d hfind (fun h => ?_) child hchild
          rcases List.mem_cons.mp h with h | h
          · exact hid h
          · exact hno h

theorem reaches_of_scanEach {scan : μ → Vertex ι → Bool × μ} {P : Vertex ι → Prop}
    (hscan : ∀ m m' v, scan m v = (true, m') → P v) {vs : List (Vertex ι)} (h : scanEach scan m vs = (true, m')) :
    ∃ v ∈ vs, P v := by
  induction vs generalizing m with
  | nil => cases h
  | cons v vs ih =>
    rw [scanEach] at h
    split at h
    · next hv => exact ⟨v, List.mem_cons_self, hscan _ _ v hv⟩
    · obtain ⟨x, hx, hp⟩ := ih h
      exact ⟨x, List.mem_cons_of_mem _ hx, hp⟩

theorem reaches_of_scan (horder : ∀ m id, (order m id).Perm (children id)) {k : Nat} (hk : depth + k = bound)
    (h : scan enter order bound k m v = (true, m')) : Reaches children bound depth v := by
  induction k generalizing m m' depth v with
  | zero =>
    rcases v with bad | id
    · cases h
      exact .leaf depth
    · cases h
  | succ k ih =>
    rcases v with bad | id
    · cases h
      exact .leaf depth
    · rw [scan] at h
      split at h
      · cases h
      · have hchild : ∀ m m' v, scan enter order bound k m v = (true, m') → Reaches children bound (depth + 1) v :=
          fun m m' v hv => ih (by omega) hv
        obtain ⟨child, hmem, hreach⟩ := reaches_of_scanEach hchild h
        exact .composite (by omega) ((horder _ id).mem_iff.mp hmem) hreach

/-- Remembering hides nothing: from an empty memory the search answers as the walk does. -/
theorem scan_eq_walk (hmemo : Memo find enter) (horder : ∀ m id, (order m id).Perm (children id))
    (hempty : ∀ id, find m id = none) (v : Vertex ι) : (scan enter order bound bound m v).1 = walk children bound v := by
  have hwalk : walk children bound v = true ↔ Reaches children bound 0 v := walk_iff (Nat.zero_add bound) v
  rw [Bool.eq_iff_iff, hwalk]
  rcases hscan : scan enter order bound bound m v with ⟨found, m'⟩
  rcases found
  · have hclosed : Closed find children bound m [] := fun id d hfind => by
      rw [hempty id] at hfind
      cases hfind
    have hdone := scan_scanned hmemo horder (Nat.zero_add bound) hclosed (fun _ h => absurd h List.not_mem_nil) hscan
    exact iff_of_false Bool.false_ne_true (hdone.closed.unreached (hdone.handled v List.mem_cons_self))
  · exact iff_of_true rfl (reaches_of_scan horder (Nat.zero_add bound) hscan)

end DepthScan
