import Mathlib.Data.List.TakeWhile
import Pineapple.Lib.LineReader
import Pineapple.Render

/-! # The Mermaid and DOT texts of the DAG (`render.cpp`, `visualize.go`)

Both formats write a line for every operator and a line for every edge. DOT names an operator by its quoted name; Go
quotes with `%q`, C++ puts the name between quotes as it stands. Mermaid names it by the name with every character but
ASCII letters, digits and `_` replaced, which C++ does byte by byte and Go character by character. -/

namespace Pineapple
namespace Render
open LineReader

/-! ## The texts -/

/-- `dot_colors_map`, `dotColors`. -/
def dotColors : List (String × String) :=
  [("recall", "#E8F5E9"), ("transform", "#E3F2FD"), ("filter", "#FFF3E0"), ("merge", "#F3E5F5"), ("reorder", "#FFFDE7"),
    ("observe", "#F5F5F5")]

/-- `color_for`. -/
def colorFor (t : String) : String := (dotColors.lookup t).getD "#F5F5F5"

/-- Go's colour of an operator type. -/
def goColorFor (t : String) : String := (dotColors.lookup t).getD "#FFFFFF"

/-- A string between quotes as it stands. -/
def rawQuote (s : List Char) : List Char := '"' :: (s ++ ['"'])

def hexDigits (width n : Nat) : List Char := (List.range width).reverse.map fun i => Nat.digitChar (n / 16 ^ i % 16)

/-- What `%q` writes for a character that it does not print. -/
def escaped (c : Char) : List Char :=
  if c = '\x07' then ['a'] else if c = '\x08' then ['b'] else if c = '\x0c' then ['f'] else if c = '\n' then ['n']
  else if c = '\r' then ['r'] else if c = '\t' then ['t'] else if c = '\x0b' then ['v']
  else if c < ' ' ∨ c = '\x7f' then 'x' :: hexDigits 2 c.toNat
  else if c.toNat < 0x10000 then 'u' :: hexDigits 4 c.toNat else 'U' :: hexDigits 8 c.toNat

/-- `appendEscapedRune` of `strconv`. -/
def goEscape (isPrint : Char → Bool) (c : Char) : List Char :=
  if c = '"' ∨ c = '\\' then ['\\', c] else if isPrint c then [c] else '\\' :: escaped c

/-- `%q`. -/
def goQuote (isPrint : Char → Bool) (s : List Char) : List Char := '"' :: (s.flatMap (goEscape isPrint) ++ ['"'])

def nameAt (g : Graph) (i : Nat) : List Char := (g.nodes[i]?.map fun node => node.name.toList).getD []

def dotHeader : List Char :=
  "digraph pipeline \x7b\n    rankdir=TB;\n    node [shape=box, style=filled, fontname=\"Helvetica\"];\n\n".toList

def dotNode (quote : List Char → List Char) (color : String → String) (node : Node) : List Char :=
  "    ".toList ++ (quote node.name.toList ++ (" [label=".toList ++ (quote node.name.toList ++ (", fillcolor=".toList ++
    (quote (color node.config.operatorType).toList ++ "];\n".toList)))))

def dotEdge (quote : List Char → List Char) (g : Graph) (e : Nat × Nat) : List Char :=
  "    ".toList ++ (quote (nameAt g e.1) ++ (" -> ".toList ++ (quote (nameAt g e.2) ++ ";\n".toList)))

def dotText (quote : List Char → List Char) (color : String → String) (g : Graph) : List Char :=
  dotHeader ++ (g.nodes.flatMap (dotNode quote color) ++ ('\n' :: ((joins g).flatMap (dotEdge quote g) ++ ['}', '\n'])))

/-- `render_dot`. -/
def renderDot (g : Graph) : List Char := dotText rawQuote colorFor g

/-- `RenderDOT`. -/
def goRenderDOT (isPrint : Char → Bool) (g : Graph) : List Char := dotText (goQuote isPrint) goColorFor g

/-- The characters that a Mermaid identifier keeps. -/
def isWord (c : Char) : Bool := c.isAlphanum || c == '_'

/-- `sanitize`: every byte but letters, digits and `_` becomes `_`. -/
def sanitize (name : List Char) : List Char :=
  name.flatMap fun c => if isWord c then [c] else List.replicate c.utf8Size '_'

/-- `sanitizeMermaidID`. -/
def goSanitizeMermaidID (name : List Char) : List Char := name.map fun c => if isWord c then c else '_'

def mermaidNode (sanitize : List Char → List Char) (className : String → String) (node : Node) : List Char :=
  "    ".toList ++ (sanitize node.name.toList ++ ('[' :: '"' :: (node.name.toList ++ ('"' :: (']' :: ":::".toList ++
    ((className node.config.operatorType).toList ++ ['\n']))))))

def mermaidEdge (sanitize : List Char → List Char) (g : Graph) (e : Nat × Nat) : List Char :=
  "    ".toList ++ (sanitize (nameAt g e.1) ++ (' ' :: ("--> ".toList ++ (sanitize (nameAt g e.2) ++ ['\n']))))

def mermaidClasses : List Char :=
  ("    classDef recall fill:#E8F5E9,stroke:#4CAF50\n" ++ "    classDef transform fill:#E3F2FD,stroke:#2196F3\n" ++
    "    classDef filter fill:#FFF3E0,stroke:#FF9800\n" ++ "    classDef merge fill:#F3E5F5,stroke:#9C27B0\n" ++
    "    classDef reorder fill:#FFFDE7,stroke:#FFC107\n" ++ "    classDef observe fill:#F5F5F5,stroke:#9E9E9E\n").toList

def mermaidText (sanitize : List Char → List Char) (className : String → String) (g : Graph) : List Char :=
  "graph TB\n".toList ++ (g.nodes.flatMap (mermaidNode sanitize className) ++
    ('\n' :: ((joins g).flatMap (mermaidEdge sanitize g) ++ '\n' :: mermaidClasses)))

/-- `render_mermaid`. -/
def renderMermaid (g : Graph) : List Char := mermaidText sanitize id g

/-- `RenderMermaid`. -/
def goRenderMermaid (g : Graph) : List Char := mermaidText goSanitizeMermaidID String.toLower g

/-! ## How the formats are read -/

/-- The rest of a quoted string of DOT, `escape` after a backslash: `\"` stands for a quote, a backslash at the end of a
line joins the lines, and every other backslash stands for itself. -/
def readBody (escape : Bool) : List Char → Option (List Char × List Char)
  | [] => none
  | c :: s =>
    match escape with
    | true =>
      if c = '"' then (readBody false s).map fun r => ('"' :: r.1, r.2)
      else if c = '\n' then readBody false s
      else (readBody false s).map fun r => ('\\' :: c :: r.1, r.2)
    | false =>
      if c = '"' then some ([], s)
      else if c = '\\' then readBody true s
      else (readBody false s).map fun r => (c :: r.1, r.2)

def readQuoted (s : List Char) : Option (List Char × List Char) := (literal ['"'] s).bind (readBody false)

/-- A node of DOT with its label. -/
def readDotNode (s : List Char) : Option ((List Char × List Char) × List Char) := do
  let s ← literal "    ".toList s
  let (id, s) ← readQuoted s
  let s ← literal " [label=".toList s
  let (label, s) ← readQuoted s
  let s ← literal ", fillcolor=".toList s
  let (_, s) ← readQuoted s
  let s ← literal "];\n".toList s
  return ((id, label), s)

def readDotEdge (s : List Char) : Option ((List Char × List Char) × List Char) := do
  let s ← literal "    ".toList s
  let (src, s) ← readQuoted s
  let s ← literal " -> ".toList s
  let (dst, s) ← readQuoted s
  let s ← literal ";\n".toList s
  return ((src, dst), s)

/-- The text is a DOT digraph of these nodes and edges. -/
def ReadsDot (text : List Char) (nodes edges : List (List Char × List Char)) : Prop :=
  TwoParts dotHeader readDotNode '\n' readDotEdge ['}', '\n'] text nodes edges

/-- What Mermaid keeps for itself: words that are no identifiers, and codes inside a quoted label. -/
structure Mermaid where
  keyword : List Char → Bool
  keyword_alphanum : ∀ w, keyword w = true → ∀ c ∈ w, c.isAlphanum = true
  decode : List Char → List Char

def readId (m : Mermaid) (s : List Char) : Option (List Char × List Char) :=
  let r := run isWord s
  if r.1 ≠ [] ∧ m.keyword r.1 = false then some r else none

/-- A node of a Mermaid flowchart with its label. -/
def readMermaidNode (m : Mermaid) (s : List Char) : Option ((List Char × List Char) × List Char) := do
  let s ← literal "    ".toList s
  let (id, s) ← readId m s
  let s ← literal ['[', '"'] s
  let (label, s) := run (· ≠ '"') s
  let s ← literal ('"' :: ']' :: ":::".toList) s
  let (_, s) := run isWord s
  let s ← literal ['\n'] s
  return ((id, m.decode label), s)

def readMermaidEdge (m : Mermaid) (s : List Char) : Option ((List Char × List Char) × List Char) := do
  let s ← literal "    ".toList s
  let (src, s) ← readId m s
  let s ← literal (' ' :: "--> ".toList) s
  let (dst, s) ← readId m s
  let s ← literal ['\n'] s
  return ((src, dst), s)

/-- The text is a Mermaid flowchart of these nodes and edges. -/
def ReadsMermaid (m : Mermaid) (text : List Char) (nodes edges : List (List Char × List Char)) : Prop :=
  TwoParts "graph TB\n".toList (readMermaidNode m) '\n' (readMermaidEdge m) ('\n' :: mermaidClasses) text nodes edges

/-! ### Quoted strings -/

theorem readBody_plain {c : Char} (hquote : c ≠ '"') (hslash : c ≠ '\\') (s : List Char) :
    readBody false (c :: s) = (readBody false s).map fun r => (c :: r.1, r.2) := by
  rw [readBody, if_neg hquote, if_neg hslash]

/-- A string without backslashes is read up to its first quote. -/
theorem readBody_raw {s : List Char} (hslash : '\\' ∉ s) (tail : List Char) :
    ∃ t, readBody false (s ++ '"' :: tail) = some (s.takeWhile (· ≠ '"'), t) ∧ ('"' ∉ s → t = tail) := by
  induction s with
  | nil => exact ⟨tail, by simp [readBody], fun _ => rfl⟩
  | cons c s ih =>
    rw [List.mem_cons, not_or] at hslash
    by_cases hc : c = '"'
    · subst hc
      exact ⟨s ++ '"' :: tail, by simp [readBody], fun h => absurd List.mem_cons_self h⟩
    · obtain ⟨t, ht, htail⟩ := ih hslash.2
      refine ⟨t, ?_, fun h => htail fun hmem => h (List.mem_cons_of_mem _ hmem)⟩
      rw [List.cons_append, readBody_plain hc (Ne.symm hslash.1), ht]
      simp [hc]

/-- What DOT reads for a character of Go's quoted string. -/
def dotRead (isPrint : Char → Bool) (c : Char) : List Char :=
  if c = '"' then ['"'] else if c = '\\' then ['\\', '\\'] else if isPrint c then [c] else '\\' :: escaped c

theorem hexDigits_plain {width n : Nat} : ∀ c ∈ hexDigits width n, c ≠ '"' ∧ c ≠ '\\' := by
  have hdigit : ∀ d < 16, Nat.digitChar d ≠ '"' ∧ Nat.digitChar d ≠ '\\' := by decide
  intro c hc
  obtain ⟨i, -, rfl⟩ := List.mem_map.mp hc
  exact hdigit _ (Nat.mod_lt _ (by decide))

theorem escaped_plain (c : Char) : ∃ d l, escaped c = d :: l ∧ d ≠ '"' ∧ d ≠ '\n' ∧ ∀ e ∈ l, e ≠ '"' ∧ e ≠ '\\' := by
  unfold escaped
  split_ifs
  all_goals first
    | exact ⟨_, _, rfl, by decide, by decide, fun _ h => absurd h List.not_mem_nil⟩
    | exact ⟨_, _, rfl, by decide, by decide, hexDigits_plain⟩

theorem readBody_plains {l : List Char} (hl : ∀ d ∈ l, d ≠ '"' ∧ d ≠ '\\') (s : List Char) :
    readBody false (l ++ s) = (readBody false s).map fun r => (l ++ r.1, r.2) := by
  induction l with
  | nil => simp
  | cons d l ih =>
    rw [List.forall_mem_cons] at hl
    rw [List.cons_append, readBody_plain hl.1.1 hl.1.2, ih hl.2, Option.map_map]
    rfl

theorem readBody_goEscape (isPrint : Char → Bool) (c : Char) (s : List Char) :
    readBody false (goEscape isPrint c ++ s) = (readBody false s).map fun r => (dotRead isPrint c ++ r.1, r.2) := by
  unfold goEscape dotRead
  by_cases hquote : c = '"'
  · subst hquote
    simp [readBody]
  · by_cases hslash : c = '\\'
    · subst hslash
      simp [readBody]
    · rw [if_neg (not_or.mpr ⟨hquote, hslash⟩), if_neg hquote, if_neg hslash]
      split
      · exact readBody_plain hquote hslash s
      · obtain ⟨d, l, hd, hquote', hnewline, hl⟩ := escaped_plain c
        rw [hd, List.cons_append, readBody, if_neg (by decide), if_pos rfl, List.cons_append, readBody, if_neg hquote',
          if_neg hnewline, readBody_plains hl, Option.map_map]
        rfl

/-- Go's quoted strings are read to their ends. -/
theorem readQuoted_goQuote (isPrint : Char → Bool) (s tail : List Char) :
    readQuoted (goQuote isPrint s ++ tail) = some (s.flatMap (dotRead isPrint), tail) := by
  have hbody : readBody false (s.flatMap (goEscape isPrint) ++ '"' :: tail) = some (s.flatMap (dotRead isPrint), tail) := by
    induction s with
    | nil => simp [readBody]
    | cons c s ih =>
      rw [List.flatMap_cons, List.append_assoc, readBody_goEscape, ih]
      rfl
  rw [readQuoted, goQuote, List.cons_append, List.append_assoc]
  exact hbody

/-- What Go quotes so that DOT reads it as it was. -/
def GoPlain (isPrint : Char → Bool) (s : List Char) : Prop := ∀ c ∈ s, c ≠ '\\' ∧ (c = '"' ∨ isPrint c = true)

theorem goPlain_cons {isPrint : Char → Bool} {c : Char} {s : List Char} :
    GoPlain isPrint (c :: s) ↔ (c ≠ '\\' ∧ (c = '"' ∨ isPrint c = true)) ∧ GoPlain isPrint s :=
  List.forall_mem_cons

theorem dotRead_cases (isPrint : Char → Bool) (c : Char) :
    dotRead isPrint c = [c] ∧ c ≠ '\\' ∧ (c = '"' ∨ isPrint c = true) ∨
      2 ≤ (dotRead isPrint c).length ∧ ¬ (c ≠ '\\' ∧ (c = '"' ∨ isPrint c = true)) := by
  unfold dotRead
  split_ifs with hquote hslash hprint
  · exact .inl ⟨by rw [hquote], by rw [hquote]; decide, .inl hquote⟩
  · exact .inr ⟨Nat.le_refl _, fun h => h.1 hslash⟩
  · exact .inl ⟨rfl, hslash, .inr hprint⟩
  · obtain ⟨d, l, hd, -⟩ := escaped_plain c
    exact .inr ⟨by simp [hd], fun h => h.2.elim hquote hprint⟩

theorem dotRead_eq_iff (isPrint : Char → Bool) (s : List Char) :
    s.flatMap (dotRead isPrint) = s ↔ GoPlain isPrint s := by
  have hlen : ∀ s : List Char, s.length ≤ (s.flatMap (dotRead isPrint)).length := by
    intro s
    induction s with
    | nil => exact Nat.le_refl _
    | cons c s ih =>
      rw [List.flatMap_cons, List.length_append, List.length_cons]
      rcases dotRead_cases isPrint c with ⟨heq, _⟩ | ⟨hlt, _⟩
      · rw [heq, List.length_singleton]
        omega
      · omega
  induction s with
  | nil => simp [GoPlain]
  | cons c s ih =>
    rw [List.flatMap_cons, goPlain_cons]
    rcases dotRead_cases isPrint c with ⟨heq, hok⟩ | ⟨hlt, hnot⟩
    · rw [heq, List.singleton_append, List.cons_inj_right]
      exact ih.trans (iff_and_self.mpr fun _ => hok)
    · refine iff_of_false (fun h => ?_) fun h => hnot h.1
      have := congrArg List.length h
      have := hlen s
      rw [List.length_append, List.length_cons] at *
      omega

/-! ### The DOT lines -/

variable {quote : List Char → List Char} {color : String → String} {tail : List Char}

theorem readDotNode_eq {node : Node} {x u : List Char}
    (hname : ∀ tail, readQuoted (quote node.name.toList ++ tail) = some (x, tail))
    (hcolor : ∀ tail, readQuoted (quote (color node.config.operatorType).toList ++ tail) = some (u, tail)) :
    readDotNode (dotNode quote color node ++ tail) = some ((x, x), tail) := by
  simp only [readDotNode, dotNode, List.append_assoc, literal_append, hname, hcolor, Option.bind_eq_bind, Option.bind_some]
  rfl

theorem readDotEdge_eq {g : Graph} {e : Nat × Nat} {x y : List Char}
    (hsrc : ∀ tail, readQuoted (quote (nameAt g e.1) ++ tail) = some (x, tail))
    (hdst : ∀ tail, readQuoted (quote (nameAt g e.2) ++ tail) = some (y, tail)) :
    readDotEdge (dotEdge quote g e ++ tail) = some ((x, y), tail) := by
  simp only [readDotEdge, dotEdge, List.append_assoc, literal_append, hsrc, hdst, Option.bind_eq_bind, Option.bind_some]
  rfl

theorem readQuoted_rawQuote {s : List Char} (hslash : '\\' ∉ s) (tail : List Char) :
    ∃ t, readQuoted (rawQuote s ++ tail) = some (s.takeWhile (· ≠ '"'), t) ∧ ('"' ∉ s → t = tail) := by
  rw [readQuoted, rawQuote, List.cons_append, List.append_assoc]
  exact readBody_raw hslash tail

theorem takeWhile_eq_iff {s : List Char} : s.takeWhile (· ≠ '"') = s ↔ '"' ∉ s := by
  rw [List.takeWhile_eq_self_iff]
  simp only [ne_eq, decide_not, Bool.not_eq_eq_eq_not, Bool.not_true, decide_eq_false_iff_not]
  exact ⟨fun h hin => h _ hin rfl, fun h c hc heq => h (heq ▸ hc)⟩

theorem readQuoted_clean {s : List Char} (hslash : '\\' ∉ s) (hquote : '"' ∉ s) (tail : List Char) :
    readQuoted (rawQuote s ++ tail) = some (s, tail) := by
  obtain ⟨t, ht, htail⟩ := readQuoted_rawQuote hslash tail
  rw [ht, htail hquote, takeWhile_eq_iff.mpr hquote]

theorem colorFor_clean (t : String) : '\\' ∉ (colorFor t).toList ∧ '"' ∉ (colorFor t).toList := by
  have htable : ∀ e ∈ dotColors, '\\' ∉ e.2.toList ∧ '"' ∉ e.2.toList := by decide
  unfold colorFor
  cases h : dotColors.lookup t with
  | none => decide
  | some c =>
    obtain ⟨l₁, l₂, hl, -⟩ := List.lookup_eq_some_iff.mp h
    exact htable (t, c) (by rw [hl]; simp)

/-- The operators' names, as a node's identifier and as its label. -/
def dotNodes (g : Graph) : List (List Char × List Char) := g.nodes.map fun node => (node.name.toList, node.name.toList)

def dotEdges (g : Graph) : List (List Char × List Char) := (joins g).map fun e => (nameAt g e.1, nameAt g e.2)

variable {g : DrawnGraph}

theorem nameAt_mem {i : Nat} (hi : i < g.nodes.length) : ∃ node ∈ g.nodes, nameAt g.toGraph i = node.name.toList :=
  ⟨g.nodes[i], List.getElem_mem hi, by simp [nameAt, hi]⟩

theorem lt_of_mem_joins {e : Nat × Nat} (he : e ∈ joins g.toGraph) : e.1 < g.nodes.length ∧ e.2 < g.nodes.length := by
  have hmem := mem_joins.mp he
  refine ⟨by_contra fun hlt => ?_, g.succs_lt _ _ hmem⟩
  rw [Graph.succs, List.getElem?_eq_none (Nat.le_of_not_lt hlt)] at hmem
  exact List.not_mem_nil hmem

/-- What holds of every name holds at the ends of every edge. -/
theorem ends_of_names {ok : List Char → Prop} (h : ∀ node ∈ g.nodes, ok node.name.toList) {e : Nat × Nat}
    (he : e ∈ joins g.toGraph) : ok (nameAt g.toGraph e.1) ∧ ok (nameAt g.toGraph e.2) := by
  obtain ⟨hsrc, hdst⟩ := lt_of_mem_joins he
  obtain ⟨m, hm, hmname⟩ := nameAt_mem hsrc
  obtain ⟨n, hn, hnname⟩ := nameAt_mem hdst
  exact ⟨hmname ▸ h m hm, hnname ▸ h n hn⟩

theorem readsDot_go (isPrint : Char → Bool) :
    ReadsDot (goRenderDOT isPrint g.toGraph) (dotNodes g.toGraph) (dotEdges g.toGraph) ↔
      ∀ node ∈ g.nodes, GoPlain isPrint node.name.toList := by
  have hnode : ∀ node ∈ g.nodes, ∀ tail t, readDotNode (dotNode (goQuote isPrint) goColorFor node ++ tail) =
      some ((node.name.toList, node.name.toList), t) ↔ GoPlain isPrint node.name.toList ∧ t = tail := by
    intro node _ tail t
    rw [readDotNode_eq (readQuoted_goQuote isPrint _) (readQuoted_goQuote isPrint _), ← dotRead_eq_iff]
    simp [eq_comm]
  refine twoParts_iff hnode fun hall e he tail => ?_
  obtain ⟨hsrc, hdst⟩ := ends_of_names hall he
  rw [readDotEdge_eq (readQuoted_goQuote isPrint _) (readQuoted_goQuote isPrint _), (dotRead_eq_iff _ _).mpr hsrc,
    (dotRead_eq_iff _ _).mpr hdst]

theorem readDotNode_id {s id label t : List Char} (h : readDotNode ("    ".toList ++ s) = some ((id, label), t)) :
    ∃ u, readQuoted s = some (id, u) := by
  simp only [readDotNode, literal_append, Option.bind_eq_bind, Option.bind_some, Option.bind_eq_some_iff] at h
  obtain ⟨⟨id', u⟩, hid, _, _, ⟨_, _⟩, _, _, _, ⟨_, _⟩, _, _, _, hout⟩ := h
  cases hout
  exact ⟨u, hid⟩

/-- A name without backslashes is read back from between the quotes exactly when it has no quote. -/
theorem readsDot_cpp (hslash : ∀ node ∈ g.nodes, '\\' ∉ node.name.toList) :
    ReadsDot (renderDot g.toGraph) (dotNodes g.toGraph) (dotEdges g.toGraph) ↔
      ∀ node ∈ g.nodes, '"' ∉ node.name.toList := by
  have hnode : ∀ node ∈ g.nodes, ∀ tail t, readDotNode (dotNode rawQuote colorFor node ++ tail) =
      some ((node.name.toList, node.name.toList), t) ↔ '"' ∉ node.name.toList ∧ t = tail := by
    intro node hmem tail t
    have hread : '"' ∉ node.name.toList → readDotNode (dotNode rawQuote colorFor node ++ tail) =
        some ((node.name.toList, node.name.toList), tail) := fun hquote =>
      readDotNode_eq (readQuoted_clean (hslash node hmem) hquote)
        (readQuoted_clean (colorFor_clean _).1 (colorFor_clean _).2)
    constructor
    · intro h
      have hquote : '"' ∉ node.name.toList := by
        rw [dotNode, List.append_assoc, List.append_assoc] at h
        obtain ⟨u, hid⟩ := readDotNode_id h
        obtain ⟨v, hv, -⟩ := readQuoted_rawQuote (hslash node hmem) ((" [label=".toList ++
          (rawQuote node.name.toList ++ (", fillcolor=".toList ++ (rawQuote (colorFor node.config.operatorType).toList ++
            "];\n".toList)))) ++ tail)
        rw [hv] at hid
        exact takeWhile_eq_iff.mp (congrArg Prod.fst (Option.some.inj hid))
      rw [hread hquote] at h
      cases h
      exact ⟨hquote, rfl⟩
    · rintro ⟨hquote, rfl⟩
      exact hread hquote
  refine twoParts_iff hnode fun hall e he tail => ?_
  obtain ⟨hsrc, hdst⟩ := @ends_of_names g (fun s => '\\' ∉ s ∧ '"' ∉ s) (fun n hn => ⟨hslash n hn, hall n hn⟩) e he
  exact readDotEdge_eq (readQuoted_clean hsrc.1 hsrc.2) (readQuoted_clean hdst.1 hdst.2)

/-! ### The Mermaid lines -/

variable {m : Mermaid} {ident : List Char → List Char} {className : String → String}

theorem readId_append {w : List Char} {c : Char} (hw : ∀ d ∈ w, isWord d = true) (hc : isWord c = false)
    (s : List Char) :
    readId m (w ++ c :: s) = if w ≠ [] ∧ m.keyword w = false then some (w, c :: s) else none := by
  rw [readId, run_append hw hc]

/-- The identifier that a name is given reads as one, and the label says the name. -/
structure MermaidPlain (m : Mermaid) (ident : List Char → List Char) (name : List Char) : Prop where
  ne_nil : ident name ≠ []
  keyword : m.keyword (ident name) = false
  decode : m.decode name = name

theorem readMermaidNode_eq {node : Node} (hword : ∀ c ∈ ident node.name.toList, isWord c = true)
    (hclass : ∀ c ∈ (className node.config.operatorType).toList, isWord c = true) (hquote : '"' ∉ node.name.toList)
    (tail : List Char) :
    readMermaidNode m (mermaidNode ident className node ++ tail) =
      if ident node.name.toList ≠ [] ∧ m.keyword (ident node.name.toList) = false then
        some ((ident node.name.toList, m.decode node.name.toList), tail) else none := by
  have hlabel : ∀ c ∈ node.name.toList, decide (c ≠ '"') = true := fun c hc =>
    decide_eq_true fun heq => hquote (heq ▸ hc)
  have hbracket : isWord '[' = false := by decide
  have hend : isWord '\n' = false := by decide
  simp only [readMermaidNode, mermaidNode, List.append_assoc, List.cons_append, literal_append, Option.bind_eq_bind,
    Option.bind_some, readId_append hword hbracket]
  split
  · simp only [Option.bind_some, literal_cons_self, literal_nil, run_append hlabel (by simp : decide ('"' ≠ '"') = false),
      literal_append, List.nil_append, run_append hclass hend]
    rfl
  · rfl

theorem readMermaidEdge_eq {g : Graph} {e : Nat × Nat} (hsrc : ∀ c ∈ ident (nameAt g e.1), isWord c = true)
    (hdst : ∀ c ∈ ident (nameAt g e.2), isWord c = true) (hsrc' : MermaidPlain m ident (nameAt g e.1))
    (hdst' : MermaidPlain m ident (nameAt g e.2)) (tail : List Char) :
    readMermaidEdge m (mermaidEdge ident g e ++ tail) =
      some ((ident (nameAt g e.1), ident (nameAt g e.2)), tail) := by
  have hspace : isWord ' ' = false := by decide
  have hend : isWord '\n' = false := by decide
  simp only [readMermaidEdge, mermaidEdge, List.append_assoc, List.cons_append, literal_append, Option.bind_eq_bind,
    Option.bind_some, readId_append hsrc hspace, literal_cons_self, List.nil_append, readId_append hdst hend,
    if_pos (And.intro hsrc'.ne_nil hsrc'.keyword), if_pos (And.intro hdst'.ne_nil hdst'.keyword), literal_nil]
  rfl

def mermaidNodes (ident : List Char → List Char) (g : Graph) : List (List Char × List Char) :=
  g.nodes.map fun node => (ident node.name.toList, node.name.toList)

def mermaidEdges (ident : List Char → List Char) (g : Graph) : List (List Char × List Char) :=
  (joins g).map fun e => (ident (nameAt g e.1), ident (nameAt g e.2))

theorem readsMermaid_iff (hword : ∀ name, ∀ c ∈ ident name, isWord c = true)
    (hclass : ∀ type : OperatorType, ∀ c ∈ (className type.toString).toList, isWord c = true)
    (hquote : ∀ node ∈ g.nodes, '"' ∉ node.name.toList) :
    ReadsMermaid m (mermaidText ident className g.toGraph) (mermaidNodes ident g.toGraph)
        (mermaidEdges ident g.toGraph) ↔ ∀ node ∈ g.nodes, MermaidPlain m ident node.name.toList := by
  have hnode : ∀ node ∈ g.nodes, ∀ tail t, readMermaidNode m (mermaidNode ident className node ++ tail) =
      some ((ident node.name.toList, node.name.toList), t) ↔ MermaidPlain m ident node.name.toList ∧ t = tail := by
    intro node hmem tail t
    obtain ⟨type, htype⟩ := g.types node hmem
    rw [readMermaidNode_eq (hword _) (htype ▸ hclass type) (hquote node hmem)]
    split
    · next h =>
      simp only [Option.some_inj, Prod.mk.injEq, true_and]
      constructor
      · rintro ⟨hdecode, rfl⟩
        exact ⟨⟨h.1, h.2, hdecode⟩, rfl⟩
      · rintro ⟨hplain, rfl⟩
        exact ⟨hplain.decode, rfl⟩
    · next h =>
      constructor
      · rintro ⟨⟩
      · rintro ⟨hplain, -⟩
        exact absurd ⟨hplain.ne_nil, hplain.keyword⟩ h
  refine twoParts_iff hnode fun hall e he tail => ?_
  obtain ⟨hsrc, hdst⟩ := ends_of_names hall he
  exact readMermaidEdge_eq (hword _) (hword _) hsrc hdst tail

/-! ### Identifiers -/

theorem goSanitizeMermaidID_word (name : List Char) : ∀ c ∈ goSanitizeMermaidID name, isWord c = true := by
  intro c hc
  obtain ⟨d, -, rfl⟩ := List.mem_map.mp hc
  split
  · next h => exact h
  · decide

/-- A name with each character repeated for the bytes of its encoding. -/
def widen (name : List Char) : List Char := name.flatMap fun c => List.replicate c.utf8Size c

theorem utf8Size_of_isWord {c : Char} (h : isWord c = true) : c.utf8Size = 1 := by
  have hle : c.val ≤ 0x7f := by
    rw [isWord, Bool.or_eq_true, beq_iff_eq] at h
    rcases h with h | rfl
    · delta Char.isAlphanum Char.isAlpha Char.isUpper Char.isLower Char.isDigit at h
      simp only [Bool.or_eq_true, Bool.and_eq_true, decide_eq_true_eq, UInt32.le_iff_toNat_le, UInt32.reduceToNat, Char.reduceVal, ge_iff_le] at h ⊢
      omega
    · decide
  unfold Char.utf8Size
  exact if_pos hle

/-- `sanitize` is Go's over the bytes. -/
theorem sanitize_eq (name : List Char) : sanitize name = goSanitizeMermaidID (widen name) := by
  rw [sanitize, goSanitizeMermaidID, widen, List.map_flatMap]
  congr 1
  funext c
  rw [List.map_replicate]
  split
  · next h => rw [utf8Size_of_isWord h, List.replicate_one]
  · rfl

/-- Two texts that differ at characters outside letters and digits alone. -/
def LooksAlike (a b : List Char) : Prop :=
  List.Forall₂ (fun c d => c = d ∨ c.isAlphanum = false ∧ d.isAlphanum = false) a b

theorem goSanitizeMermaidID_eq_iff {a b : List Char} : goSanitizeMermaidID a = goSanitizeMermaidID b ↔ LooksAlike a b := by
  have hchar : ∀ c d : Char, ((if isWord c then c else '_') = if isWord d then d else '_') ↔
      c = d ∨ c.isAlphanum = false ∧ d.isAlphanum = false := by
    intro c d
    have hword : ∀ e : Char, isWord e = false → e.isAlphanum = false := fun e he => (Bool.or_eq_false_iff.mp he).1
    have hunder : ∀ e : Char, isWord e = true → e.isAlphanum = false → e = '_' := fun e he hne => by
      simpa [isWord, hne] using he
    constructor
    · intro h
      cases hc : isWord c <;> cases hd : isWord d <;> simp only [hc, hd, if_true, Bool.false_eq_true, if_false] at h
      · exact .inr ⟨hword c hc, hword d hd⟩
      · subst h
        exact .inr ⟨hword c hc, by decide⟩
      · subst h
        exact .inr ⟨by decide, hword d hd⟩
      · exact .inl h
    · rintro (rfl | ⟨hc, hd⟩)
      · rfl
      · have hblank : ∀ e : Char, e.isAlphanum = false → (if isWord e then e else '_') = '_' := fun e he => by
          split
          · next h => exact hunder e h he
          · rfl
        rw [hblank c hc, hblank d hd]
  rw [goSanitizeMermaidID, goSanitizeMermaidID, ← List.forall₂_eq_eq_eq, List.forall₂_map_left_iff,
    List.forall₂_map_right_iff]
  simp only [hchar]
  rfl

theorem goSanitizeMermaidID_eq_nil {name : List Char} : goSanitizeMermaidID name = [] ↔ name = [] := List.map_eq_nil_iff

theorem self_mem_widen {name : List Char} {c : Char} (hc : c ∈ name) : c ∈ widen name :=
  List.mem_flatMap.mpr ⟨c, hc, List.mem_replicate.mpr ⟨(Char.utf8Size_pos c).ne', rfl⟩⟩

theorem widen_eq_nil {name : List Char} : widen name = [] ↔ name = [] := by
  constructor
  · intro h
    refine List.eq_nil_iff_forall_not_mem.mpr fun c hc => ?_
    have := self_mem_widen hc
    rw [h] at this
    exact List.not_mem_nil this
  · rintro rfl
    rfl

/-- Keywords have letters and digits alone. -/
theorem keyword_congr (m : Mermaid) {a b : List Char} (hsame : (∀ c ∈ a, c.isAlphanum = true) → b = a)
    (hkeep : (∀ c ∈ b, c.isAlphanum = true) → ∀ c ∈ a, c.isAlphanum = true) : m.keyword b = m.keyword a := by
  by_cases ha : ∀ c ∈ a, c.isAlphanum = true
  · rw [hsame ha]
  · have hfalse : ∀ w, ¬ (∀ c ∈ w, c.isAlphanum = true) → m.keyword w = false := fun w hw =>
      Bool.eq_false_iff.mpr fun h => hw (m.keyword_alphanum w h)
    rw [hfalse a ha, hfalse b fun hb => ha (hkeep hb)]

theorem keyword_goSanitize (m : Mermaid) (name : List Char) : m.keyword (goSanitizeMermaidID name) = m.keyword name := by
  refine keyword_congr m (fun h => ?_) fun h c hc => ?_
  · refine (List.map_congr_left fun c hc => ?_).trans (List.map_id name)
    rw [isWord, h c hc]
    rfl
  · have := h _ (List.mem_map_of_mem hc)
    split at this
    · exact this
    · cases this

theorem keyword_widen (m : Mermaid) (name : List Char) : m.keyword (widen name) = m.keyword name := by
  refine keyword_congr m (fun h => ?_) fun h c hc => h c (self_mem_widen hc)
  refine (List.flatMap_congr fun c hc => ?_).trans (List.flatMap_singleton' name)
  rw [utf8Size_of_isWord (by rw [isWord, h c hc]; rfl), List.replicate_one]

theorem keyword_sanitize (m : Mermaid) (name : List Char) : m.keyword (sanitize name) = m.keyword name := by
  rw [sanitize_eq, keyword_goSanitize, keyword_widen]

/-! ## Faithful drawings -/

/-- Both engines' collapsed views are the quotient and the same; the identifiers of every text are different, and it
is read back as the graph. -/
structure Faithful (isPrint : Char → Bool) (m : Mermaid) (g : DrawnGraph) : Prop where
  quotient : ∀ level > 0, IsQuotient g.toGraph level (buildCollapsed g.toGraph level)
  goQuotient : ∀ level > 0, IsQuotient g.toGraph level (goBuildCollapsed g.toGraph level)
  sameView : ∀ level > 0, goBuildCollapsed g.toGraph level = buildCollapsed g.toGraph level
  dotIds : (g.nodes.map fun node => rawQuote node.name.toList).Nodup
  goDotIds : (g.nodes.map fun node => goQuote isPrint node.name.toList).Nodup
  mermaidIds : (g.nodes.map fun node => sanitize node.name.toList).Nodup
  goMermaidIds : (g.nodes.map fun node => goSanitizeMermaidID node.name.toList).Nodup
  dot : ReadsDot (renderDot g.toGraph) (dotNodes g.toGraph) (dotEdges g.toGraph)
  goDot : ReadsDot (goRenderDOT isPrint g.toGraph) (dotNodes g.toGraph) (dotEdges g.toGraph)
  mermaid : ReadsMermaid m (renderMermaid g.toGraph) (mermaidNodes sanitize g.toGraph) (mermaidEdges sanitize g.toGraph)
  goMermaid : ReadsMermaid m (goRenderMermaid g.toGraph) (mermaidNodes goSanitizeMermaidID g.toGraph)
    (mermaidEdges goSanitizeMermaidID g.toGraph)

/-- No two operators have names that look alike, as texts or byte by byte, every name is made of printed characters
other than quotes and backslashes and means nothing to Mermaid, and the sub-flow paths are told apart from the names. -/
structure Plain (isPrint : Char → Bool) (m : Mermaid) (g : DrawnGraph) : Prop where
  named : ∀ node ∈ g.nodes, node.name ≠ ""
  quiet : ∀ node ∈ g.nodes, ∀ c ∈ node.name.toList, c ≠ '"' ∧ c ≠ '\\' ∧ isPrint c = true
  keyword : ∀ node ∈ g.nodes, m.keyword node.name.toList = false
  decode : ∀ node ∈ g.nodes, m.decode node.name.toList = node.name.toList
  apart : g.nodes.Pairwise fun a b => ¬ LooksAlike a.name.toList b.name.toList
  bytesApart : g.nodes.Pairwise fun a b => ¬ LooksAlike (widen a.name.toList) (widen b.name.toList)
  noLeadingSlash : NoLeadingSlash g.toGraph
  keysApart : KeysApart g.toGraph

variable {isPrint : Char → Bool}

theorem mermaidPlain_go {name : List Char} :
    MermaidPlain m goSanitizeMermaidID name ↔ name ≠ [] ∧ m.keyword name = false ∧ m.decode name = name := by
  constructor
  · rintro ⟨hne, hkey, hdecode⟩
    exact ⟨fun h => hne (goSanitizeMermaidID_eq_nil.mpr h), keyword_goSanitize m name ▸ hkey, hdecode⟩
  · rintro ⟨hne, hkey, hdecode⟩
    exact ⟨fun h => hne (goSanitizeMermaidID_eq_nil.mp h), (keyword_goSanitize m name).trans hkey, hdecode⟩

theorem mermaidPlain_cpp {name : List Char} :
    MermaidPlain m sanitize name ↔ name ≠ [] ∧ m.keyword name = false ∧ m.decode name = name := by
  have hnil : sanitize name = [] ↔ name = [] := by rw [sanitize_eq, goSanitizeMermaidID_eq_nil, widen_eq_nil]
  constructor
  · rintro ⟨hne, hkey, hdecode⟩
    exact ⟨fun h => hne (hnil.mpr h), keyword_sanitize m name ▸ hkey, hdecode⟩
  · rintro ⟨hne, hkey, hdecode⟩
    exact ⟨fun h => hne (hnil.mp h), (keyword_sanitize m name).trans hkey, hdecode⟩

theorem className_word (type : OperatorType) : (∀ c ∈ (id type.toString).toList, isWord c = true) ∧
    ∀ c ∈ type.toString.toLower.toList, isWord c = true := by
  have hall : type.toString.toList.all isWord = true ∧ type.toString.toLower.toList.all isWord = true := by
    cases type <;> decide +kernel
  exact ⟨List.all_eq_true.mp hall.1, List.all_eq_true.mp hall.2⟩

theorem readsMermaid_cpp (hquote : ∀ node ∈ g.nodes, '"' ∉ node.name.toList) :
    ReadsMermaid m (renderMermaid g.toGraph) (mermaidNodes sanitize g.toGraph)
        (mermaidEdges sanitize g.toGraph) ↔
      ∀ node ∈ g.nodes, node.name.toList ≠ [] ∧ m.keyword node.name.toList = false ∧
        m.decode node.name.toList = node.name.toList := by
  rw [renderMermaid, readsMermaid_iff (fun name => sanitize_eq name ▸ goSanitizeMermaidID_word _)
    (fun type => (className_word type).1) hquote]
  simp only [mermaidPlain_cpp]

theorem readsMermaid_go (hquote : ∀ node ∈ g.nodes, '"' ∉ node.name.toList) :
    ReadsMermaid m (goRenderMermaid g.toGraph) (mermaidNodes goSanitizeMermaidID g.toGraph)
        (mermaidEdges goSanitizeMermaidID g.toGraph) ↔
      ∀ node ∈ g.nodes, node.name.toList ≠ [] ∧ m.keyword node.name.toList = false ∧
        m.decode node.name.toList = node.name.toList := by
  rw [goRenderMermaid, readsMermaid_iff goSanitizeMermaidID_word (fun type => (className_word type).2) hquote]
  simp only [mermaidPlain_go]

theorem nodup_map_iff {α : Type*} {l : List Node} {f : Node → α} {alike : Node → Node → Prop}
    (h : ∀ a b, f a = f b ↔ alike a b) : (l.map f).Nodup ↔ l.Pairwise fun a b => ¬ alike a b := by
  rw [List.Nodup, List.pairwise_map]
  simp only [ne_eq, h]

theorem Faithful.plain (h : Faithful isPrint m g) : Plain isPrint m g := by
  have hgo := (readsDot_go isPrint).mp h.goDot
  have hquote := (readsDot_cpp fun node hnode hin => (hgo node hnode '\\' hin).1 rfl).mp h.dot
  have hmermaid := (readsMermaid_go hquote).mp h.goMermaid
  have hslash := noLeadingSlash_of_isQuotient (h.quotient 1 Nat.one_pos)
  refine ⟨fun node hnode hname => ?_, fun node hnode c hc => ?_, fun node hnode => (hmermaid node hnode).2.1,
    fun node hnode => (hmermaid node hnode).2.2, ?_, ?_, hslash, keysApart_of_isQuotient hslash h.goQuotient⟩
  · exact (hmermaid node hnode).1 (by rw [hname]; rfl)
  · have hne : c ≠ '"' := fun heq => hquote node hnode (heq ▸ hc)
    exact ⟨hne, (hgo node hnode c hc).1, (hgo node hnode c hc).2.resolve_left hne⟩
  · exact (nodup_map_iff fun a b => goSanitizeMermaidID_eq_iff).mp h.goMermaidIds
  · refine (nodup_map_iff fun a b => ?_).mp h.mermaidIds
    rw [sanitize_eq, sanitize_eq, goSanitizeMermaidID_eq_iff]

theorem nodup_ids {g : Graph} {quote : List Char → List Char} (h : (g.nodes.map fun node => node.name.toList).Nodup)
    (hinj : ∀ x ∈ g.nodes.map (fun node => node.name.toList), ∀ y ∈ g.nodes.map (fun node => node.name.toList),
      quote x = quote y → x = y) : (g.nodes.map fun node => quote node.name.toList).Nodup := by
  have := List.Nodup.map_on hinj h
  rwa [List.map_map] at this

theorem Plain.faithful (h : Plain isPrint m g) : Faithful isPrint m g := by
  have hmermaidIds : (g.nodes.map fun node => goSanitizeMermaidID node.name.toList).Nodup :=
    (nodup_map_iff fun a b => goSanitizeMermaidID_eq_iff).mpr h.apart
  have hchars : (g.nodes.map fun node => node.name.toList).Nodup := by
    refine List.Nodup.of_map goSanitizeMermaidID ?_
    rwa [List.map_map]
  have hnames : (g.nodes.map Node.name).Nodup := by
    refine List.Nodup.of_map String.toList ?_
    rwa [List.map_map]
  have hquote : ∀ node ∈ g.nodes, '"' ∉ node.name.toList := fun node hnode hin => (h.quiet node hnode _ hin).1 rfl
  have hplain : ∀ node ∈ g.nodes, node.name.toList ≠ [] ∧ m.keyword node.name.toList = false ∧
      m.decode node.name.toList = node.name.toList := fun node hnode =>
    ⟨fun hnil => h.named node hnode (String.toList_eq_nil_iff.mp hnil), h.keyword node hnode, h.decode node hnode⟩
  have hgo : ∀ node ∈ g.nodes, GoPlain isPrint node.name.toList := fun node hnode c hc =>
    ⟨(h.quiet node hnode c hc).2.1, .inr (h.quiet node hnode c hc).2.2⟩
  exact {
    quotient := fun level hlevel => buildCollapsed_isQuotient hlevel h.noLeadingSlash
    goQuotient := fun level hlevel => goBuildCollapsed_isQuotient hlevel h.noLeadingSlash h.keysApart hnames
    sameView := fun level hlevel => goBuildCollapsed_eq hlevel h.noLeadingSlash h.keysApart hnames
    dotIds := nodup_ids hchars fun x _ y _ heq => List.append_cancel_right (List.cons_inj_right _ |>.mp heq)
    goDotIds := nodup_ids hchars fun x hx y hy heq => by
      obtain ⟨n, hn, rfl⟩ := List.mem_map.mp hx
      obtain ⟨n', hn', rfl⟩ := List.mem_map.mp hy
      have hread := readQuoted_goQuote isPrint n.name.toList []
      rw [heq, readQuoted_goQuote, (dotRead_eq_iff _ _).mpr (hgo n hn), (dotRead_eq_iff _ _).mpr (hgo n' hn')] at hread
      exact (congrArg Prod.fst (Option.some.inj hread)).symm
    mermaidIds := (nodup_map_iff fun a b => by rw [sanitize_eq, sanitize_eq, goSanitizeMermaidID_eq_iff]).mpr h.bytesApart
    goMermaidIds := hmermaidIds
    dot := (readsDot_cpp fun node hnode hin => (h.quiet node hnode _ hin).2.1 rfl).mpr hquote
    goDot := (readsDot_go isPrint).mpr hgo
    mermaid := (readsMermaid_cpp hquote).mpr hplain
    goMermaid := (readsMermaid_go hquote).mpr hplain }

/-- A drawing is faithful exactly when no two names look alike to Mermaid, the names are plain text and no sub-flow path
starts with a slash or is a name's own key. -/
theorem drawing_faithful_iff (isPrint : Char → Bool) (m : Mermaid) (g : DrawnGraph) :
    Faithful isPrint m g ↔ Plain isPrint m g := ⟨Faithful.plain, Plain.faithful⟩

/-- The operators `a-b` and `a_b`, with no edge. -/
def lookalikes : DrawnGraph where
  nodes := [⟨"a-b", "", { operatorType := "transform" }, [], []⟩, ⟨"a_b", "", { operatorType := "transform" }, [], []⟩]
  succs_lt u v hv := by
    rcases u with _ | _ | u <;> simp [Graph.succs] at hv
  types node hnode := by
    refine ⟨.transform, ?_⟩
    rcases List.mem_pair.mp hnode with rfl | rfl <;> rfl

/-- Mermaid takes both for `a_b`. -/
theorem drawing_ambiguous : ¬ ∃ isPrint m, Faithful isPrint m lookalikes := by
  rintro ⟨isPrint, m, h⟩
  exact absurd h.goMermaidIds (by decide)

end Render

end Pineapple
