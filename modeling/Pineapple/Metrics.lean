import Pineapple.JsonWriter
import Pineapple.Lib.SortedMap
import Mathlib.Data.List.Lex
import Mathlib.Data.Char
import Mathlib.Logic.Function.Basic

/-! # Metrics (`metrics_collector.cpp`, `MetricsCollector.java`)

A collector keeps the cells of every metric by the key that the labels of a handle join to. A tee hands every call on
to its children. -/

namespace Pineapple.Metrics

open Json (Bytes)

/-- The numbers that a collector adds up. -/
structure Arith (N : Type) where
  zero : N
  inc : N → N
  add : N → N → N
  nanos : N → Int

inductive Kind
  | counter | gauge | histogram
deriving DecidableEq

inductive Update (N : Type)
  | inc
  | set (value : N)
  | add (delta : N)
  | observe (value : N)

/-- The kind of the handles that have the update. -/
def Update.kind {N : Type} : Update N → Kind
  | inc => .counter
  | set _ => .gauge
  | add _ => .gauge
  | observe _ => .histogram

structure HistCell where
  count : Int := 0
  sumNs : Int := 0

inductive CellValue (N : Type)
  | number (v : N)
  | hist (cell : HistCell)

/-- `label_key`, `labelKey`. -/
def labelKey {α : Type} (space : α) : List (List α) → List α
  | [] => []
  | v :: vs => v ++ vs.flatMap fun w => space :: w

/-- The handles that a collector makes. -/
structure Handle (α : Type) where
  kind : Kind
  name : List α
  labels : List (List α)

def Handle.key {α : Type} (space : α) (h : Handle α) : List α := labelKey space h.labels

/-- `Collector`, `MetricsCollector`. -/
structure Collector (α N : Type) [LinearOrder α] where
  counters : SortedMap (List α) (SortedMap (List α) N) := ∅
  gauges : SortedMap (List α) (SortedMap (List α) N) := ∅
  histograms : SortedMap (List α) (SortedMap (List α) HistCell) := ∅

section
variable {α N C : Type} [LinearOrder α] (A : Arith N)

def register (m : SortedMap (List α) (SortedMap (List α) C)) (name : List α) : SortedMap (List α) (SortedMap (List α) C) :=
  if m.contains name then m else m.insert name ∅

/-- `m[name][key] = f(m[name][key])`; the handles of a name are made after it is registered. -/
def touch (zero : C) (f : C → C) (m : SortedMap (List α) (SortedMap (List α) C)) (name key : List α) :
    SortedMap (List α) (SortedMap (List α) C) :=
  let cells := (m.find? name).getD ∅
  m.insert name (cells.insert key (f ((cells.find? key).getD zero)))

namespace Collector

/-- `new_counter`, `new_gauge`, `new_histogram`. -/
def new (c : Collector α N) (name : List α) : Kind → Collector α N
  | .counter => { c with counters := register c.counters name }
  | .gauge => { c with gauges := register c.gauges name }
  | .histogram => { c with histograms := register c.histograms name }

/-- `inc_counter`, `set_gauge`, `add_gauge`, `observe_hist`. -/
def update (c : Collector α N) (name key : List α) : Update N → Collector α N
  | .inc => { c with counters := touch A.zero A.inc c.counters name key }
  | .set value => { c with gauges := touch A.zero (fun _ => value) c.gauges name key }
  | .add delta => { c with gauges := touch A.zero (A.add · delta) c.gauges name key }
  | .observe value =>
    { c with histograms := touch {} (fun cell => ⟨cell.count + 1, cell.sumNs + A.nanos value⟩) c.histograms name key }

/-- The cells of a metric. -/
def cells? (c : Collector α N) : Kind → List α → Option (SortedMap (List α) (CellValue N))
  | .counter, name => (c.counters.find? name).map (SortedMap.mapValues .number)
  | .gauge, name => (c.gauges.find? name).map (SortedMap.mapValues .number)
  | .histogram, name => (c.histograms.find? name).map (SortedMap.mapValues .hist)

def cell? (c : Collector α N) (kind : Kind) (name key : List α) : Option (CellValue N) :=
  (c.cells? kind name).bind (·.find? key)

/-- The three kinds in one map by name, as `to_json` and `snapshot` put them, each metric by `inner`. -/
def merged {β : Type} (inner : SortedMap (List α) (CellValue N) → β) (c : Collector α N) : SortedMap (List α) β :=
  let byName := (c.counters.mapValues fun cells => inner (cells.mapValues .number)).entries.foldl
    (fun m e => m.insert e.1 e.2) ∅
  let byName := (c.gauges.mapValues fun cells => inner (cells.mapValues .number)).entries.foldl
    (fun m e => m.insert e.1 e.2) byName
  (c.histograms.mapValues fun cells => inner (cells.mapValues .hist)).entries.foldl (fun m e => m.insert e.1 e.2) byName

/-- `MetricsCollector.snapshot`. -/
def snapshot (c : Collector α N) : SortedMap (List α) (SortedMap (List α) (CellValue N)) := c.merged id

end Collector
end

section
variable [LinearOrder UInt8] (toChars : FiniteBinary64 → Bytes)

def cellJson : CellValue Binary64 → Bytes
  | .number v => Json.formatNumber toChars v
  | .hist cell => Json.token "\x7b\"count\":" ++ Json.token (toString cell.count) ++ Json.token ",\"sum_ns\":" ++
      Json.token (toString cell.sumNs) ++ Json.token "\x7d"

/-- An object of members that have their texts. -/
def objectJson (members : List (Bytes × Bytes)) : Bytes :=
  Json.ascii '{' :: (Json.enclose .compact 0 (members.map (Json.writeMember .compact)) ++ [Json.ascii '}'])

/-- `Collector::to_json`. -/
def Collector.toJson (c : Collector UInt8 Binary64) : Bytes :=
  objectJson (c.merged fun cells => objectJson (cells.entries.map fun e => (e.1, cellJson toChars e.2))).entries

end

/-! ## Providers -/

/-- `Provider` with its handles. -/
structure Provider (α N S H : Type) where
  new : Kind → List α → S → H × S
  withLabels : H → List (List α) → S → H × S
  update : H → Update N → S → S

/-- A call on a provider, or on a handle by its place among those that were made. -/
inductive Action (α N : Type)
  | new (kind : Kind) (name : List α)
  | withLabels (i : Nat) (labels : List (List α))
  | update (i : Nat) (u : Update N)

section
variable {α N S H : Type}

def Provider.step (P : Provider α N S H) (s : S × List H) : Action α N → S × List H
  | .new kind name => ((P.new kind name s.1).2, s.2 ++ [(P.new kind name s.1).1])
  | .withLabels i labels =>
    match s.2[i]? with
    | none => s
    | some h => ((P.withLabels h labels s.1).2, s.2 ++ [(P.withLabels h labels s.1).1])
  | .update i u =>
    match s.2[i]? with
    | none => s
    | some h => (P.update h u s.1, s.2)

def Provider.run (P : Provider α N S H) (acts : List (Action α N)) (s : S × List H) : S × List H := acts.foldl P.step s

/-- A collector; the types of the handles allow them only the updates of their kind. -/
def collector [LinearOrder α] (space : α) (A : Arith N) : Provider α N (Collector α N) (Handle α) where
  new kind name c := (⟨kind, name, []⟩, c.new name kind)
  withLabels h labels c := (⟨h.kind, h.name, labels⟩, c)
  update h u c := if u.kind = h.kind then c.update A h.name (h.key space) u else c

end

/-! ## The tee -/

section
variable {α N ι : Type} [DecidableEq ι] {S H : ι → Type} (P : ∀ i, Provider α N (S i) (H i))

def teeNew (kind : Kind) (name : List α) : List ι → (∀ i, S i) → List (Σ i, H i) × ∀ i, S i
  | [], st => ([], st)
  | p :: ps, st =>
    let r := (P p).new kind name (st p)
    let rest := teeNew kind name ps (Function.update st p r.2)
    (⟨p, r.1⟩ :: rest.1, rest.2)

def teeWithLabels (labels : List (List α)) : List (Σ i, H i) → (∀ i, S i) → List (Σ i, H i) × ∀ i, S i
  | [], st => ([], st)
  | h :: hs, st =>
    let r := (P h.1).withLabels h.2 labels (st h.1)
    let rest := teeWithLabels labels hs (Function.update st h.1 r.2)
    (⟨h.1, r.1⟩ :: rest.1, rest.2)

def teeUpdate (u : Update N) (hs : List (Σ i, H i)) (st : ∀ i, S i) : ∀ i, S i :=
  hs.foldl (fun st h => Function.update st h.1 ((P h.1).update h.2 u (st h.1))) st

/-- `TeeProvider` over its children. -/
def tee (providers : List ι) : Provider α N (∀ i, S i) (List (Σ i, H i)) where
  new kind name st := teeNew P kind name providers st
  withLabels hs labels st := teeWithLabels P labels hs st
  update hs u st := teeUpdate P u hs st

end

/-! ## Keys -/

/-- Two labels without the space stand apart in front of what follows them. -/
theorem append_inj_of_not_mem {α : Type} {space : α} {v w rest rest' : List α} (hv : space ∉ v) (hw : space ∉ w)
    (hrest : ∀ a ∈ rest.head?, a = space) (hrest' : ∀ a ∈ rest'.head?, a = space) (h : v ++ rest = w ++ rest') :
    v = w ∧ rest = rest' := by
  induction v generalizing w with
  | nil =>
    cases w with
    | nil => exact ⟨rfl, h⟩
    | cons b w =>
      rw [List.nil_append, List.cons_append] at h
      have hb : b = space := hrest b (by rw [h]; rfl)
      exact absurd (hb ▸ List.mem_cons_self) hw
  | cons a v ih =>
    cases w with
    | nil =>
      rw [List.nil_append, List.cons_append] at h
      have ha : a = space := hrest' a (by rw [← h]; rfl)
      exact absurd (ha ▸ List.mem_cons_self) hv
    | cons b w =>
      rw [List.cons_append, List.cons_append, List.cons.injEq] at h
      obtain ⟨rfl, hrest⟩ := ih (fun hm => hv (List.mem_cons_of_mem _ hm)) (fun hm => hw (List.mem_cons_of_mem _ hm)) h.2
      exact ⟨by rw [h.1], hrest⟩

/-- Labels without a space are told apart by their key. -/
theorem labelKey_inj {α : Type} {space : α} {vs ws : List (List α)} (hlen : vs.length = ws.length)
    (hvs : ∀ v ∈ vs, space ∉ v) (hws : ∀ w ∈ ws, space ∉ w) (h : labelKey space vs = labelKey space ws) : vs = ws := by
  induction vs generalizing ws with
  | nil => exact (List.length_eq_zero_iff.mp hlen.symm).symm
  | cons v vs ih =>
    obtain ⟨w, ws, rfl⟩ := List.exists_cons_of_length_eq_add_one hlen.symm
    have hstart : ∀ us : List (List α), ∀ a ∈ (us.flatMap fun w => space :: w).head?, a = space := by
      intro us a ha
      cases us with
      | nil => cases ha
      | cons u us =>
        simp only [List.flatMap_cons, List.cons_append, List.head?_cons, Option.mem_some_iff] at ha
        exact ha.symm
    obtain ⟨rfl, hrest⟩ := append_inj_of_not_mem (hvs v List.mem_cons_self) (hws w List.mem_cons_self)
      (hstart vs) (hstart ws) h
    have hlen' : vs.length = ws.length := Nat.succ.inj hlen
    congr 1
    refine ih hlen' (fun u hu => hvs u (List.mem_cons_of_mem _ hu)) (fun u hu => hws u (List.mem_cons_of_mem _ hu)) ?_
    cases vs with
    | nil =>
      obtain rfl := List.length_eq_zero_iff.mp hlen'.symm
      rfl
    | cons u vs =>
      obtain ⟨x, ws, rfl⟩ := List.exists_cons_of_length_eq_add_one hlen'.symm
      exact (List.cons.inj hrest).2

/-! ## Cells -/

section
variable {α N C : Type} [LinearOrder α] (A : Arith N)

def numberOf : Option (CellValue N) → N
  | some (.number v) => v
  | _ => A.zero

def histOf : Option (CellValue N) → HistCell
  | some (.hist cell) => cell
  | _ => {}

/-- What an update makes of the cell of its handle. -/
def Update.apply (o : Option (CellValue N)) : Update N → CellValue N
  | inc => .number (A.inc (numberOf A o))
  | set value => .number value
  | add delta => .number (A.add (numberOf A o) delta)
  | observe value => .hist ⟨(histOf o).count + 1, (histOf o).sumNs + A.nanos value⟩

theorem find?_register (m : SortedMap (List α) (SortedMap (List α) C)) (name name' : List α) :
    (register m name).find? name' = if name' = name ∧ m.find? name = none then some ∅ else m.find? name' := by
  rw [register]
  split
  · next h =>
    obtain ⟨v, hv⟩ := SortedMap.contains_iff.mp h
    rw [if_neg fun hn => by simp [hv] at hn]
  · next h =>
    have hnone : m.find? name = none := by
      cases hf : m.find? name with
      | none => rfl
      | some v => exact absurd (SortedMap.contains_iff.mpr ⟨v, hf⟩) h
    rw [SortedMap.find?_insert]
    simp [hnone]

/-- A cell in a map of maps. -/
def cellIn (m : SortedMap (List α) (SortedMap (List α) C)) (name key : List α) : Option C :=
  (m.find? name).bind (·.find? key)

theorem cellIn_register (m : SortedMap (List α) (SortedMap (List α) C)) (name name' key : List α) :
    cellIn (register m name) name' key = cellIn m name' key := by
  rw [cellIn, cellIn, find?_register]
  split
  · next h =>
    rw [h.1, h.2]
    rfl
  · rfl

theorem cellIn_touch (zero : C) (f : C → C) (m : SortedMap (List α) (SortedMap (List α) C)) (name key name' key' : List α) :
    cellIn (touch zero f m name key) name' key' =
      if name' = name ∧ key' = key then some (f ((cellIn m name key).getD zero)) else cellIn m name' key' := by
  have hcell : ∀ k, ((m.find? name).getD ∅).find? k = cellIn m name k := fun k => by
    rw [cellIn]
    cases m.find? name <;> rfl
  rw [cellIn, touch, SortedMap.find?_insert]
  by_cases hname : name' = name
  · subst hname
    rw [if_pos rfl, Option.bind_some, SortedMap.find?_insert, hcell, hcell]
    by_cases hkey : key' = key
    · rw [if_pos hkey, if_pos ⟨rfl, hkey⟩]
    · rw [if_neg hkey, if_neg fun h => hkey h.2]
  · rw [if_neg hname, if_neg fun h => hname h.1]
    rfl

namespace Collector
variable (c : Collector α N)

theorem cell?_eq (kind : Kind) (name key : List α) : c.cell? kind name key =
    match kind with
    | .counter => (cellIn c.counters name key).map .number
    | .gauge => (cellIn c.gauges name key).map .number
    | .histogram => (cellIn c.histograms name key).map .hist := by
  have hmap : ∀ {D : Type} (g : D → CellValue N) (m : SortedMap (List α) (SortedMap (List α) D)),
      ((m.find? name).map (SortedMap.mapValues g)).bind (·.find? key) = (cellIn m name key).map g := fun g m => by
    rw [cellIn]
    cases m.find? name with
    | none => rfl
    | some cells => exact SortedMap.find?_mapValues ..
  cases kind <;> exact hmap ..

theorem cell?_new (name : List α) (kind kind' : Kind) (name' key : List α) :
    (c.new name kind).cell? kind' name' key = c.cell? kind' name' key := by
  cases kind <;> cases kind' <;> simp [new, cell?_eq, cellIn_register]

theorem cell?_update (name key : List α) (u : Update N) (kind : Kind) (name' key' : List α) :
    (c.update A name key u).cell? kind name' key' =
      if kind = u.kind ∧ name' = name ∧ key' = key then some (u.apply A (c.cell? kind name key))
      else c.cell? kind name' key' := by
  have hnumber : ∀ o : Option N, numberOf A (o.map .number) = o.getD A.zero := fun o => by cases o <;> rfl
  have hhist : ∀ o : Option HistCell, histOf (o.map (CellValue.hist (N := N))) = o.getD {} := fun o => by cases o <;> rfl
  cases u <;> cases kind <;>
    simp only [update, cell?_eq, cellIn_touch, Update.kind, Update.apply, true_and, reduceCtorEq, false_and, if_false,
      hnumber, hhist] <;> split <;> rfl

/-- Of the kinds that have a metric of a name, the last one is reported. -/
theorem find?_merged {β : Type} (inner : SortedMap (List α) (CellValue N) → β) (name : List α) :
    (c.merged inner).find? name =
      (((c.cells? .histogram name).or (c.cells? .gauge name)).or (c.cells? .counter name)).map inner := by
  have hfold : ∀ m m' : SortedMap (List α) β,
      (m'.entries.foldl (fun m e => m.insert e.1 e.2) m).find? name = (m'.find? name).or (m.find? name) := fun m m' =>
    SortedMap.find?_foldl_insert m'.sorted m name
  simp only [merged, hfold, SortedMap.find?_mapValues, SortedMap.find?_empty, cells?]
  cases c.histograms.find? name <;> cases c.gauges.find? name <;> cases c.counters.find? name <;> rfl

/-- A metric whose name is of one kind is reported with its cells. -/
theorem find?_merged_of_one {β : Type} (inner : SortedMap (List α) (CellValue N) → β) {kind : Kind} {name : List α}
    {cells : SortedMap (List α) (CellValue N)} (h : c.cells? kind name = some cells)
    (hone : ∀ kind', kind' ≠ kind → c.cells? kind' name = none) : (c.merged inner).find? name = some (inner cells) := by
  rw [find?_merged]
  cases kind with
  | counter => rw [hone .histogram nofun, hone .gauge nofun, h]; rfl
  | gauge => rw [hone .histogram nofun, h]; rfl
  | histogram => rw [h]; rfl

end Collector
end

/-! ## Runs of a collector -/

section
variable {α N : Type} (A : Arith N)

/-- The handles of the calls, and the updates with the handles they were made on. -/
def logStep (s : List (Handle α) × List (Handle α × Update N)) : Action α N → List (Handle α) × List (Handle α × Update N)
  | .new kind name => (s.1 ++ [⟨kind, name, []⟩], s.2)
  | .withLabels i labels =>
    match s.1[i]? with
    | none => s
    | some h => (s.1 ++ [⟨h.kind, h.name, labels⟩], s.2)
  | .update i u =>
    match s.1[i]? with
    | none => s
    | some h => (s.1, if u.kind = h.kind then s.2 ++ [(h, u)] else s.2)

def updates (acts : List (Action α N)) : List (Handle α × Update N) := (acts.foldl logStep ([], [])).2

/-- The updates of some handles, one after the other. -/
def total (log : List (Handle α × Update N)) (mine : Handle α → Bool) : Option (CellValue N) :=
  (log.filter fun e => mine e.1).foldl (fun o e => some (e.2.apply A o)) none

theorem total_snoc (log : List (Handle α × Update N)) (e : Handle α × Update N) (mine : Handle α → Bool) :
    total A (log ++ [e]) mine = if mine e.1 then some (e.2.apply A (total A log mine)) else total A log mine := by
  rw [total, List.filter_append, List.foldl_append]
  by_cases h : mine e.1
  · simp [h, total]
  · simp [h, total]

variable [LinearOrder α] (space : α)

/-- The handles of a metric whose labels join to a key. -/
def ofKey (kind : Kind) (name key : List α) (h : Handle α) : Bool :=
  h.kind = kind ∧ h.name = name ∧ h.key space = key

/-- The handles are those of the calls, and every cell is what the updates under its key make of it. -/
structure Agrees (s : Collector α N × List (Handle α)) (l : List (Handle α) × List (Handle α × Update N)) : Prop where
  handles : s.2 = l.1
  cells : ∀ kind name key, s.1.cell? kind name key = total A l.2 (ofKey space kind name key)

variable {A space}

theorem Agrees.step {s : Collector α N × List (Handle α)} {l : List (Handle α) × List (Handle α × Update N)}
    (h : Agrees A space s l) (act : Action α N) : Agrees A space ((collector space A).step s act) (logStep l act) := by
  cases act with
  | new kind name =>
    refine ⟨congrArg (· ++ [_]) h.handles, fun kind' name' key => ?_⟩
    exact (Collector.cell?_new ..).trans (h.cells kind' name' key)
  | withLabels i labels =>
    cases hi : l.1[i]? with
    | none =>
      simp only [Provider.step, logStep, h.handles, hi]
      exact h
    | some x =>
      simp only [Provider.step, logStep, h.handles, hi]
      exact ⟨rfl, h.cells⟩
  | update i u =>
    cases hi : l.1[i]? with
    | none =>
      simp only [Provider.step, logStep, h.handles, hi]
      exact h
    | some x =>
      simp only [Provider.step, logStep, h.handles, hi, collector]
      refine ⟨rfl, fun kind name key => ?_⟩
      by_cases hkind : u.kind = x.kind
      · rw [if_pos hkind, if_pos hkind, Collector.cell?_update, total_snoc]
        have hmine : (ofKey space kind name key x = true) ↔ kind = u.kind ∧ name = x.name ∧ key = x.key space := by
          rw [ofKey, decide_eq_true_eq, hkind]
          exact and_congr eq_comm (and_congr eq_comm eq_comm)
        by_cases hm : kind = u.kind ∧ name = x.name ∧ key = x.key space
        · rw [if_pos hm, if_pos (hmine.mpr hm), ← h.cells, hm.2.1, hm.2.2]
        · rw [if_neg hm, if_neg fun hx => hm (hmine.mp hx)]
          exact h.cells kind name key
      · rw [if_neg hkind, if_neg hkind]
        exact h.cells kind name key

theorem run_agrees (acts : List (Action α N)) :
    Agrees A space ((collector space A).run acts ({}, [])) (acts.foldl logStep ([], [])) := by
  have hgen : ∀ (acts : List (Action α N)) (s : Collector α N × List (Handle α))
      (l : List (Handle α) × List (Handle α × Update N)), Agrees A space s l →
      Agrees A space ((collector space A).run acts s) (acts.foldl logStep l) := by
    intro acts
    induction acts with
    | nil => exact fun s l h => h
    | cons act acts ih => exact fun s l h => ih _ _ (h.step act)
  exact hgen acts _ _ ⟨rfl, fun kind name key => by cases kind <;> rfl⟩

end

/-! ## The children of a tee -/

section
variable {α N ι : Type} [DecidableEq ι] {S H : ι → Type} (P : ∀ i, Provider α N (S i) (H i))

/-- The handle of a tee has one handle of the child. -/
def Holds (p : ι) (hs : List (Σ i, H i)) (h : H p) : Prop :=
  ∃ pre post, hs = pre ++ ⟨p, h⟩ :: post ∧ (∀ x ∈ pre, x.1 ≠ p) ∧ ∀ x ∈ post, x.1 ≠ p

variable {P}

theorem teeUpdate_other {p : ι} {hs : List (Σ i, H i)} (h : ∀ x ∈ hs, x.1 ≠ p) (u : Update N) (st : ∀ i, S i) :
    teeUpdate P u hs st p = st p := by
  induction hs generalizing st with
  | nil => rfl
  | cons x hs ih =>
    refine (ih (fun y hy => h y (List.mem_cons_of_mem _ hy)) _).trans ?_
    exact Function.update_of_ne (Ne.symm (h x List.mem_cons_self)) ..

theorem teeUpdate_child {p : ι} {hs : List (Σ i, H i)} {h : H p} (hh : Holds p hs h) (u : Update N) (st : ∀ i, S i) :
    teeUpdate P u hs st p = (P p).update h u (st p) := by
  obtain ⟨pre, post, rfl, hpre, hpost⟩ := hh
  have hsplit : teeUpdate P u (pre ++ ⟨p, h⟩ :: post) st =
      teeUpdate P u post (Function.update (teeUpdate P u pre st) p ((P p).update h u (teeUpdate P u pre st p))) := by
    simp only [teeUpdate, List.foldl_append, List.foldl_cons]
  rw [hsplit, teeUpdate_other hpost, Function.update_self, teeUpdate_other hpre]

theorem teeWithLabels_other {p : ι} {hs : List (Σ i, H i)} (h : ∀ x ∈ hs, x.1 ≠ p) (labels : List (List α))
    (st : ∀ i, S i) :
    (teeWithLabels P labels hs st).2 p = st p ∧ ∀ x ∈ (teeWithLabels P labels hs st).1, x.1 ≠ p := by
  induction hs generalizing st with
  | nil => exact ⟨rfl, fun x hx => absurd hx List.not_mem_nil⟩
  | cons x hs ih =>
    obtain ⟨hst, hall⟩ := ih (fun y hy => h y (List.mem_cons_of_mem _ hy))
      (Function.update st x.1 ((P x.1).withLabels x.2 labels (st x.1)).2)
    refine ⟨hst.trans (Function.update_of_ne (Ne.symm (h x List.mem_cons_self)) ..), fun y hy => ?_⟩
    rcases List.mem_cons.mp hy with rfl | hy
    · exact h x List.mem_cons_self
    · exact hall y hy

theorem teeWithLabels_child {p : ι} {hs : List (Σ i, H i)} {h : H p} (hh : Holds p hs h) (labels : List (List α))
    (st : ∀ i, S i) :
    (teeWithLabels P labels hs st).2 p = ((P p).withLabels h labels (st p)).2 ∧
      Holds p (teeWithLabels P labels hs st).1 ((P p).withLabels h labels (st p)).1 := by
  obtain ⟨pre, post, rfl, hpre, hpost⟩ := hh
  induction pre generalizing st with
  | nil =>
    obtain ⟨hst, hall⟩ := teeWithLabels_other (P := P) hpost labels
      (Function.update st p ((P p).withLabels h labels (st p)).2)
    refine ⟨hst.trans (Function.update_self ..), [], _, rfl, fun x hx => absurd hx List.not_mem_nil, hall⟩
  | cons x pre ih =>
    obtain ⟨hst, pre', post', heq, hpre', hpost'⟩ := ih (Function.update st x.1 ((P x.1).withLabels x.2 labels (st x.1)).2)
      fun y hy => hpre y (List.mem_cons_of_mem _ hy)
    have hx : x.1 ≠ p := hpre x List.mem_cons_self
    rw [Function.update_of_ne (Ne.symm hx)] at hst heq
    refine ⟨hst, ⟨x.1, ((P x.1).withLabels x.2 labels (st x.1)).1⟩ :: pre', post', ?_, fun y hy => ?_, hpost'⟩
    · rw [List.cons_append, List.cons_append, ← heq]
      rfl
    · rcases List.mem_cons.mp hy with rfl | hy
      · exact hx
      · exact hpre' y hy

theorem teeNew_other {p : ι} {providers : List ι} (h : p ∉ providers) (kind : Kind) (name : List α) (st : ∀ i, S i) :
    (teeNew P kind name providers st).2 p = st p ∧ ∀ x ∈ (teeNew P kind name providers st).1, x.1 ≠ p := by
  induction providers generalizing st with
  | nil => exact ⟨rfl, fun x hx => absurd hx List.not_mem_nil⟩
  | cons q providers ih =>
    have hq : p ≠ q := fun heq => h (heq ▸ List.mem_cons_self)
    obtain ⟨hst, hall⟩ := ih (fun hm => h (List.mem_cons_of_mem _ hm)) (Function.update st q ((P q).new kind name (st q)).2)
    refine ⟨hst.trans (Function.update_of_ne hq ..), fun y hy => ?_⟩
    rcases List.mem_cons.mp hy with rfl | hy
    · exact Ne.symm hq
    · exact hall y hy

theorem teeNew_child {p : ι} {providers : List ι} (hp : p ∈ providers) (hnodup : providers.Nodup) (kind : Kind)
    (name : List α) (st : ∀ i, S i) :
    (teeNew P kind name providers st).2 p = ((P p).new kind name (st p)).2 ∧
      Holds p (teeNew P kind name providers st).1 ((P p).new kind name (st p)).1 := by
  induction providers generalizing st with
  | nil => cases hp
  | cons q providers ih =>
    obtain ⟨hq, hrest⟩ := List.nodup_cons.mp hnodup
    by_cases hpq : p = q
    · subst hpq
      obtain ⟨hst, hall⟩ := teeNew_other (P := P) hq kind name (Function.update st p ((P p).new kind name (st p)).2)
      refine ⟨hst.trans (Function.update_self ..), [], _, rfl, fun x hx => absurd hx List.not_mem_nil, hall⟩
    · obtain ⟨hst, pre, post, heq, hpre, hpost⟩ := ih ((List.mem_cons.mp hp).resolve_left hpq) hrest
        (Function.update st q ((P q).new kind name (st q)).2)
      rw [Function.update_of_ne hpq] at hst heq
      refine ⟨hst, ⟨q, ((P q).new kind name (st q)).1⟩ :: pre, post, ?_, fun y hy => ?_, hpost⟩
      · rw [List.cons_append, ← heq]
        rfl
      · rcases List.mem_cons.mp hy with rfl | hy
        · exact Ne.symm hpq
        · exact hpre y hy

/-- The child's part of a state of the tee. -/
def Follows (p : ι) (s : (∀ i, S i) × List (List (Σ i, H i))) (t : S p × List (H p)) : Prop :=
  s.1 p = t.1 ∧ List.Forall₂ (Holds p) s.2 t.2

theorem Follows.step {p : ι} {providers : List ι} (hp : p ∈ providers) (hnodup : providers.Nodup)
    {s : (∀ i, S i) × List (List (Σ i, H i))} {t : S p × List (H p)} (h : Follows p s t) (act : Action α N) :
    Follows p ((tee P providers).step s act) ((P p).step t act) := by
  obtain ⟨hst, hhandles⟩ := h
  have hget : ∀ i, s.2[i]? = none ∧ t.2[i]? = none ∨ ∃ hs x, s.2[i]? = some hs ∧ t.2[i]? = some x ∧ Holds p hs x :=
    fun i => by
      rcases Nat.lt_or_ge i s.2.length with hi | hi
      · have hi' : i < t.2.length := hhandles.length_eq ▸ hi
        refine .inr ⟨s.2[i], t.2[i], List.getElem?_eq_getElem hi, List.getElem?_eq_getElem hi', ?_⟩
        exact List.Forall₂.get hhandles hi hi'
      · exact .inl ⟨List.getElem?_eq_none hi, List.getElem?_eq_none (hhandles.length_eq ▸ hi)⟩
  cases act with
  | new kind name =>
    obtain ⟨hnew, hholds⟩ := teeNew_child (P := P) hp hnodup kind name s.1
    rw [hst] at hnew hholds
    exact ⟨hnew, List.rel_append hhandles (.cons hholds .nil)⟩
  | withLabels i labels =>
    rcases hget i with ⟨hs, ht⟩ | ⟨hs, x, hs', ht, hholds⟩
    · simp only [Provider.step, hs, ht]
      exact ⟨hst, hhandles⟩
    · simp only [Provider.step, hs', ht]
      obtain ⟨hwith, hnext⟩ := teeWithLabels_child (P := P) hholds labels s.1
      rw [hst] at hwith hnext
      exact ⟨hwith, List.rel_append hhandles (.cons hnext .nil)⟩
  | update i u =>
    rcases hget i with ⟨hs, ht⟩ | ⟨hs, x, hs', ht, hholds⟩
    · simp only [Provider.step, hs, ht]
      exact ⟨hst, hhandles⟩
    · simp only [Provider.step, hs', ht]
      have hupdate := teeUpdate_child (P := P) hholds u s.1
      rw [hst] at hupdate
      exact ⟨hupdate, hhandles⟩

/-- Every child of a tee goes through the calls as if they were made on it alone. -/
theorem tee_run {p : ι} {providers : List ι} (hp : p ∈ providers) (hnodup : providers.Nodup) (acts : List (Action α N))
    (st : ∀ i, S i) :
    ((tee P providers).run acts (st, [])).1 p = ((P p).run acts (st p, [])).1 := by
  have hgen : ∀ (acts : List (Action α N)) (s : (∀ i, S i) × List (List (Σ i, H i))) (t : S p × List (H p)),
      Follows p s t → Follows p ((tee P providers).run acts s) ((P p).run acts t) := by
    intro acts
    induction acts with
    | nil => exact fun s t h => h
    | cons act acts ih => exact fun s t h => ih _ _ (h.step hp hnodup act)
  exact (hgen acts (st, []) (st p, []) ⟨rfl, .nil⟩).1

end

/-! ## Accounts -/

/-- The handles of a metric with labels. -/
def ofLabels {α : Type} [DecidableEq α] (kind : Kind) (name : List α) (labels : List (List α)) (h : Handle α) : Bool :=
  h.kind = kind ∧ h.name = name ∧ h.labels = labels

/-- A cell is its tuple's own where no label of its metric has a space. -/
theorem total_ofKey {α N : Type} [LinearOrder α] {space : α} {A : Arith N} {log : List (Handle α × Update N)} {kind : Kind}
    {name : List α} {labels : List (List α)} (hlabels : ∀ v ∈ labels, space ∉ v)
    (hlog : ∀ e ∈ log, e.1.kind = kind → e.1.name = name →
      e.1.labels.length = labels.length ∧ ∀ v ∈ e.1.labels, space ∉ v) :
    total A log (ofKey space kind name (labelKey space labels)) = total A log (ofLabels kind name labels) := by
  have hsame : log.filter (fun e => ofKey space kind name (labelKey space labels) e.1) =
      log.filter fun e => ofLabels kind name labels e.1 := by
    refine List.filter_congr fun e he => ?_
    rw [ofKey, ofLabels, decide_eq_decide]
    refine and_congr_right fun hkind => and_congr_right fun hname => ⟨fun hkey => ?_, fun hl => by rw [Handle.key, hl]⟩
    obtain ⟨hlen, hspace⟩ := hlog e he hkind hname
    exact labelKey_inj hlen hspace hlabels hkey
  rw [total, total, hsame]

/-- What the collectors and the tee keep apart, report and hand on. -/
theorem collector_accounts {α N : Type} [LinearOrder α] (space : α) (A : Arith N) :
    (∀ (acts : List (Action α N)) kind name key, ((collector space A).run acts ({}, [])).1.cell? kind name key =
      total A (updates acts) (ofKey space kind name key)) ∧
    (∀ (acts : List (Action α N)) kind name labels, (∀ v ∈ labels, space ∉ v) →
      (∀ e ∈ updates acts, e.1.kind = kind → e.1.name = name →
        e.1.labels.length = labels.length ∧ ∀ v ∈ e.1.labels, space ∉ v) →
      ((collector space A).run acts ({}, [])).1.cell? kind name (labelKey space labels) =
        total A (updates acts) (ofLabels kind name labels)) ∧
    (∀ (c : Collector α N) kind name cells, c.cells? kind name = some cells →
      (∀ kind', kind' ≠ kind → c.cells? kind' name = none) → c.snapshot.find? name = some cells) ∧
    (∀ [LinearOrder UInt8] (toChars : FiniteBinary64 → Bytes) (c : Collector UInt8 Binary64) kind name cells,
      c.cells? kind name = some cells → (∀ kind', kind' ≠ kind → c.cells? kind' name = none) →
      ∃ members, c.toJson toChars = objectJson members ∧
        (name, objectJson (cells.entries.map fun e => (e.1, cellJson toChars e.2))) ∈ members) ∧
    ∀ {ι : Type} [DecidableEq ι] {S H : ι → Type} (P : ∀ i, Provider α N (S i) (H i)) (providers : List ι) p,
      p ∈ providers → providers.Nodup → ∀ acts st,
        ((tee P providers).run acts (st, [])).1 p = ((P p).run acts (st p, [])).1 := by
  refine ⟨fun acts => (run_agrees acts).cells, fun acts kind name labels hlabels hlog => ?_, ?_, ?_, ?_⟩
  · rw [(run_agrees acts).cells]
    exact total_ofKey hlabels hlog
  · exact fun c kind name cells hcells hone => c.find?_merged_of_one id hcells hone
  · exact fun toChars c kind name cells hcells hone =>
      ⟨_, rfl, SortedMap.mem_entries.mpr (c.find?_merged_of_one _ hcells hone)⟩
  · exact fun P providers p hp hnodup acts st => tee_run hp hnodup acts st

def natArith : Arith Nat := ⟨0, (· + 1), (· + ·), (↑·)⟩

theorem collector_accounts_counter :
    ((collector ' ' natArith).run [.new .counter ['m'], .withLabels 0 [['a'], ['b']], .update 1 .inc] ({}, [])).1.cell?
      .counter ['m'] (labelKey ' ' [['a'], ['b']]) =
    total natArith (updates [.new .counter ['m'], .withLabels 0 [['a'], ['b']], .update 1 .inc])
      (ofLabels .counter ['m'] [['a'], ['b']]) := by
  refine (collector_accounts ' ' natArith).2.1 _ _ _ _ (by simp) fun e he _ _ => ?_
  obtain rfl := List.mem_singleton.mp he
  exact ⟨rfl, by simp⟩

/-- Labels with spaces meet in one cell: an update under `"a b", "c"` counts for `"a", "b c"`. -/
theorem cell_shared :
    ((collector ' ' natArith).run
      [.new .counter ['m'], .withLabels 0 [['a', ' ', 'b'], ['c']], .update 1 .inc] ({}, [])).1.cell?
        .counter ['m'] (labelKey ' ' [['a'], ['b', ' ', 'c']]) = some (.number 1) ∧
    total natArith (updates [.new .counter ['m'], .withLabels 0 [['a', ' ', 'b'], ['c']], .update 1 .inc])
      (ofLabels .counter ['m'] [['a'], ['b', ' ', 'c']]) = none :=
  ⟨rfl, rfl⟩

end Pineapple.Metrics
