import Mathlib.Data.List.Induction
import Pineapple.HttpFraming

/-! # The server hands out the requests it was sent

What `read_http_request` makes of the bytes of one request, and from it what the loop makes of a whole stream. -/

namespace Pineapple.Http

open Search

/-! ## The request line -/

theorem Visible.not_mem {l : List Char} (h : Visible l) {c : Char} (hc : ¬ ' ' < c) : c ∉ l := fun hm => hc (h c hm)

theorem parseRequestLine_eq (r : Request) : parseRequestLine r.line = some (r.method, r.target, r.version) := by
  have hmethod : find [' '] r.line = some r.method.length :=
    find_at (r.method_visible.not_mem (by decide)) (r.target ++ ' ' :: r.version)
  have htarget : find [' '] (r.target ++ ' ' :: r.version) = some r.target.length :=
    find_at (r.target_visible.not_mem (by decide)) r.version
  have hrest : r.line.drop (r.method.length + 1) = r.target ++ ' ' :: r.version := by
    rw [Request.line, ← List.drop_drop, List.drop_left]
    rfl
  unfold parseRequestLine
  simp only [hmethod, hrest, htarget, Option.bind_eq_bind, Option.bind_some, Option.pure_def]
  rw [Request.line, List.take_left, List.take_left, ← List.drop_drop, List.drop_left]
  rfl

theorem splitUri_eq (uri : List Char) :
    splitUri uri = (uri.takeWhile (· ≠ '?'), (uri.dropWhile (· ≠ '?')).drop 1) := by
  have hpass {l : List Char} (h : '?' ∉ l) : ∀ c ∈ l, decide (c ≠ '?') = true :=
    fun c hc => decide_eq_true fun heq => h (heq ▸ hc)
  unfold splitUri
  by_cases hq : '?' ∈ uri
  · obtain ⟨a, b, rfl, ha⟩ := List.eq_append_cons_of_mem hq
    rw [show find ['?'] (a ++ '?' :: b) = some a.length from find_at ha b,
      List.takeWhile_append_of_pos (hpass ha), List.dropWhile_append_of_pos (hpass ha)]
    simp [← List.drop_drop]
  · rw [find_singleton_eq_none hq, List.takeWhile_eq_self_iff.mpr (hpass hq), List.dropWhile_eq_nil_iff.mpr (hpass hq)]
    rfl

/-! ## Where the headers end -/

def fieldLines (hs : List HeaderField) : List Char := hs.flatMap fun h => h.line ++ crlf

/-- The header lines without the last line end. -/
def joined (h : HeaderField) (hs : List HeaderField) : List Char := h.line ++ hs.flatMap fun h => crlf ++ h.line

theorem joined_cons (h h' : HeaderField) (hs : List HeaderField) :
    joined h (h' :: hs) = h.line ++ (crlf ++ joined h' hs) := by
  rw [joined, joined, List.flatMap_cons, List.append_assoc]

theorem fieldLines_cons (h : HeaderField) (hs : List HeaderField) :
    fieldLines (h :: hs) = h.line ++ (crlf ++ fieldLines hs) := by
  rw [fieldLines, List.flatMap_cons, List.append_assoc]
  rfl

theorem fieldLines_eq_joined (h : HeaderField) (hs : List HeaderField) :
    fieldLines (h :: hs) = joined h hs ++ crlf := by
  induction hs generalizing h with
  | nil => simp [fieldLines, joined]
  | cons h' hs ih => rw [fieldLines_cons, ih, joined_cons, List.append_assoc, List.append_assoc]

namespace HeaderField
variable (h : HeaderField)

theorem line_ne : h.line ≠ [] := by
  rw [line]
  exact List.append_ne_nil_of_right_ne_nil _ (List.cons_ne_nil _ _)

theorem not_mem_line {c : Char} (hc : ¬ ' ' < c) (hcolon : c ≠ ':') (hvalue : c ∉ h.value) : c ∉ h.line := by
  rw [line, List.mem_append, List.mem_cons]
  rintro (hm | rfl | hm)
  · exact h.name_visible.not_mem hc hm
  · exact hcolon rfl
  · exact hvalue hm

theorem cr_not_mem_line : '\r' ∉ h.line := h.not_mem_line (by decide) (by decide) h.value_text.1

theorem lf_not_mem_line : '\n' ∉ h.line := h.not_mem_line (by decide) (by decide) h.value_text.2

end HeaderField

/-- The first empty line is the one after the header lines. -/
theorem find_fieldLines (hs : List HeaderField) (rest : List Char) :
    find (crlf ++ crlf) (crlf ++ (fieldLines hs ++ (crlf ++ rest))) = some (fieldLines hs).length := by
  induction hs with
  | nil => exact find_here (List.prefix_append (crlf ++ crlf) rest)
  | cons h hs ih =>
    obtain ⟨tail, htail⟩ : ∃ tail, tail = crlf ++ (fieldLines hs ++ (crlf ++ rest)) := ⟨_, rfl⟩
    have hassoc : fieldLines (h :: hs) ++ (crlf ++ rest) = h.line ++ tail := by
      rw [fieldLines_cons, htail, List.append_assoc, List.append_assoc]
    have hcr : ¬ crlf ++ crlf <+: '\r' :: '\n' :: (h.line ++ tail) := by
      rintro ⟨t, ht⟩
      have hline : '\r' :: '\n' :: t = h.line ++ tail := (List.cons.inj (List.cons.inj ht).2).2
      cases hl : h.line with
      | nil => exact h.line_ne hl
      | cons c cs =>
        rw [hl, List.cons_append] at hline
        refine h.cr_not_mem_line ?_
        rw [hl, ← (List.cons.inj hline).1]
        exact List.mem_cons_self
    have hlf : ¬ crlf ++ crlf <+: '\n' :: (h.line ++ tail) := by
      rintro ⟨t, ht⟩
      exact absurd (List.cons.inj ht).1 (by decide)
    rw [hassoc]
    show find (crlf ++ crlf) ('\r' :: '\n' :: (h.line ++ tail)) = _
    rw [find_later hcr, find_later hlf]
    show ((find ('\r' :: ['\n', '\r', '\n']) (h.line ++ tail)).map _).map _ = _
    rw [find_skip h.cr_not_mem_line, htail]
    show (((find (crlf ++ crlf) _).map _).map _).map _ = _
    rw [ih, fieldLines_cons]
    simp [crlf]
    omega

/-! ## The header lines -/

/-- What the header fields tell, one after the other. -/
def scanFields (scan : HeaderScan) (hs : List HeaderField) : HeaderScan :=
  hs.foldl (fun scan h => scan.field h.name h.trimmed) scan

theorem line_field (scan : HeaderScan) (h : HeaderField) (tail : List Char) (htail : tail = [] ∨ tail = ['\r']) :
    scan.line (h.line ++ tail) = scan.field h.name h.trimmed := by
  have hstrip : (if (h.line ++ tail).getLast? = some '\r' then (h.line ++ tail).dropLast else h.line ++ tail) = h.line := by
    rcases htail with rfl | rfl
    · rw [List.append_nil, if_neg]
      intro hlast
      exact h.cr_not_mem_line (List.mem_of_getLast? hlast)
    · rw [List.getLast?_concat, if_pos rfl, List.dropLast_concat]
  have hfind : find [':'] h.line = some h.name.length := find_at h.name_colon h.value
  unfold HeaderScan.line
  rw [hstrip]
  dsimp only
  rw [if_neg h.line_ne, hfind]
  dsimp only
  have hdrop : h.line.drop (h.name.length + 1) = h.value := by
    rw [HeaderField.line, ← List.drop_drop, List.drop_left]
    rfl
  rw [hdrop, HeaderField.line, List.take_left]
  rfl

theorem foldl_joined (scan : HeaderScan) (h : HeaderField) (hs : List HeaderField) :
    ((joined h hs).splitOn '\n').foldl HeaderScan.line scan = scanFields scan (h :: hs) := by
  induction hs generalizing h scan with
  | nil =>
    have hsplit : (joined h []).splitOn '\n' = [h.line ++ []] := by
      rw [joined, List.flatMap_nil]
      exact List.splitOn_eq_singleton (by simpa using h.lf_not_mem_line)
    rw [hsplit]
    exact line_field scan h [] (.inl rfl)
  | cons h' hs ih =>
    have hsplit : (joined h (h' :: hs)).splitOn '\n' = (h.line ++ ['\r']) :: (joined h' hs).splitOn '\n' := by
      have hassoc : joined h (h' :: hs) = (h.line ++ ['\r']) ++ '\n' :: joined h' hs := by
        rw [joined_cons, List.append_assoc]
        rfl
      rw [hassoc]
      refine List.splitOn_append_cons_self_of_not_mem ?_ _
      simpa using h.lf_not_mem_line
    rw [hsplit, List.foldl_cons, line_field scan h _ (.inr rfl)]
    exact ih _ h'

/-- The header lines are scanned field by field, if nothing has come after the empty line where there are none. -/
theorem scanHeaders_eq (hs : List HeaderField) (line rest : List Char) {got : Nat}
    (hgot : line.length + (fieldLines hs).length + 4 ≤ got)
    (hnone : hs = [] → got = line.length + 4) :
    scanHeaders (headersOf ((line ++ (crlf ++ (fieldLines hs ++ (crlf ++ rest)))).take got) line.length
      (line.length + (fieldLines hs).length)) = scanFields {} hs := by
  have hdrop : (line ++ (crlf ++ (fieldLines hs ++ (crlf ++ rest)))).drop (line.length + 2) =
      fieldLines hs ++ (crlf ++ rest) := by
    rw [← List.drop_drop, List.drop_left]
    rfl
  unfold headersOf
  rw [List.drop_take, hdrop]
  dsimp only
  cases hs with
  | nil =>
    have hlt : line.length + (fieldLines []).length < line.length + 2 := Nat.add_lt_add_left Nat.two_pos _
    rw [hnone rfl, if_pos hlt, Nat.add_sub_add_left]
    rfl
  | cons h hs =>
    have hlen : (fieldLines (h :: hs)).length = (joined h hs).length + 2 := by
      rw [fieldLines_eq_joined, List.length_append]
      rfl
    have hcount : line.length + (fieldLines (h :: hs)).length - line.length - 2 = (joined h hs).length := by omega
    rw [if_neg (by omega), hcount, List.take_take, Nat.min_eq_left (by omega), fieldLines_eq_joined, List.append_assoc,
      List.take_left]
    exact foldl_joined {} h hs

/-! ## The fields -/

namespace HeaderField
variable {h : HeaderField} {n : Nat}

theorem isSpace_of_blank {c : Char} (hc : Blank c) : isSpace c = true := by
  rcases hc with rfl | rfl
  · rfl
  · rfl

theorem not_isDigit_of_blank {c : Char} (hc : Blank c) : c.isDigit = false := by
  rcases hc with rfl | rfl
  · rfl
  · rfl

/-- What `stoll` makes of a length with blanks around it. -/
theorem stoll_trimmed (hg : h.GivesLength n) :
    ∃ consumed, stoll h.trimmed = (if n < int64Bound then some ((n : Int), consumed) else none) ∧
      (consumed = h.trimmed.length ↔ ¬ h.Padded) := by
  obtain ⟨pre, digits, post, hvalue, hpre, hpost, hne, hdigits, rfl⟩ := hg
  have hfirst : (digits ++ post).dropWhile (fun c => decide (c = ' ')) = digits ++ post := by
    obtain ⟨d, ds, rfl⟩ := List.exists_cons_of_ne_nil hne
    have hd : d.isDigit = true := List.all_eq_true.mp hdigits d List.mem_cons_self
    rw [List.cons_append, List.dropWhile_cons_of_neg]
    rintro heq
    rw [of_decide_eq_true heq] at hd
    exact absurd hd Bool.false_ne_true
  obtain ⟨pre', hpre', htrimmed⟩ : ∃ pre', (∀ c ∈ pre', Blank c) ∧ h.trimmed = pre' ++ (digits ++ post) := by
    refine ⟨pre.dropWhile (fun c => decide (c = ' ')), fun c hc => hpre c ((List.dropWhile_sublist _).mem hc), ?_⟩
    rw [trimmed, hvalue, List.dropWhile_append, hfirst]
    split
    · next hempty =>
      rw [List.isEmpty_iff.mp hempty]
      rfl
    · rfl
  refine ⟨pre'.length + digits.length, ?_, ?_⟩
  · rw [htrimmed, stoll, parseInteger_digits (fun c hc => isSpace_of_blank (hpre' c hc)) ?_ hne hdigits]
    exact fun c hc => not_isDigit_of_blank (hpost c (List.mem_of_head? hc))
  · rw [htrimmed]
    cases post using List.reverseRecOn with
    | nil =>
      have hlast : ¬ h.Padded := by
        rintro ⟨c, hc, hblank⟩
        rw [hvalue, List.append_nil, List.getLast?_append_of_ne_nil _ hne] at hc
        have hd := List.all_eq_true.mp hdigits c (List.mem_of_getLast? hc)
        exact absurd (hd.symm.trans (not_isDigit_of_blank hblank)) Bool.noConfusion
      simp [hlast]
    | append_singleton post c =>
      have hlast : h.Padded := by
        refine ⟨c, ?_, hpost c (by simp)⟩
        rw [hvalue, ← List.append_assoc, ← List.append_assoc, List.getLast?_concat]
        exact rfl
      simp [hlast]

/-- A `Content-Length` field that is taken. -/
theorem field_taken (hn : h.IsNamed "content-length") (hg : h.GivesLength n) (hlt : n < int64Bound) (hp : ¬ h.Padded)
    (scan : HeaderScan) : scan.field h.name h.trimmed = { scan with contentLength := n } := by
  obtain ⟨consumed, hstoll, hconsumed⟩ := stoll_trimmed hg
  rw [if_pos hlt] at hstoll
  have hn : h.name.map Char.toLower = "content-length".toList := hn
  unfold HeaderScan.field
  dsimp only
  rw [if_pos hn, hstoll]
  dsimp only
  rw [if_neg]
  rintro (hne | hneg)
  · exact hne (hconsumed.mpr hp)
  · omega

/-- A `Content-Length` field that is refused. -/
theorem field_refused (hn : h.IsNamed "content-length") (hg : h.GivesLength n) (hbad : ¬ n < int64Bound ∨ h.Padded)
    (scan : HeaderScan) : scan.field h.name h.trimmed = { scan with invalidContentLength := true } := by
  obtain ⟨consumed, hstoll, hconsumed⟩ := stoll_trimmed hg
  have hn : h.name.map Char.toLower = "content-length".toList := hn
  unfold HeaderScan.field
  dsimp only
  rw [if_pos hn, hstoll]
  by_cases hlt : n < int64Bound
  · rw [if_pos hlt]
    dsimp only
    rw [if_pos]
    exact .inl fun heq => hbad.elim (absurd hlt) (hconsumed.mp heq)
  · rw [if_neg hlt]

/-- Any other field tells of the connection at most. -/
theorem field_other (hn : ¬ h.IsNamed "content-length") (scan : HeaderScan) :
    scan.field h.name h.trimmed = { scan with
      connectionClose := scan.connectionClose || h.hasOption "close"
      connectionKeepAlive := scan.connectionKeepAlive || h.hasOption "keep-alive" } := by
  have hn : ¬ h.name.map Char.toLower = "content-length".toList := hn
  unfold HeaderScan.field
  dsimp only
  rw [if_neg hn]
  by_cases hc : h.IsNamed "connection"
  · have hname : h.name.map Char.toLower = "connection".toList := hc
    rw [if_pos hname]
    have hoption {option : String} (h' : h.trimmed.map Char.toLower = option.toList) : h.hasOption option = true :=
      decide_eq_true ⟨hc, h'⟩
    have hnone {option : String} (h' : ¬ h.trimmed.map Char.toLower = option.toList) : h.hasOption option = false :=
      decide_eq_false fun hand => h' hand.2
    by_cases hclose : h.trimmed.map Char.toLower = "close".toList
    · have hkeep : ¬ h.trimmed.map Char.toLower = "keep-alive".toList := by
        rw [hclose]
        decide
      rw [if_pos hclose, hoption hclose, hnone hkeep, Bool.or_true, Bool.or_false]
    · by_cases hkeep : h.trimmed.map Char.toLower = "keep-alive".toList
      · rw [if_neg hclose, if_pos hkeep, hnone hclose, hoption hkeep, Bool.or_true, Bool.or_false]
      · rw [if_neg hclose, if_neg hkeep, hnone hclose, hnone hkeep, Bool.or_false, Bool.or_false]
  · have hname : ¬ h.name.map Char.toLower = "connection".toList := hc
    have hnone (option : String) : h.hasOption option = false := decide_eq_false fun hand => hc hand.1
    rw [if_neg hname, hnone, hnone, Bool.or_false, Bool.or_false]

end HeaderField

/-- The length is taken when every field that gives it is. -/
theorem scanFields_taken {hs : List HeaderField} {n : Nat} (hlt : n < int64Bound)
    (hall : ∀ h ∈ hs, h.IsNamed "content-length" → h.GivesLength n ∧ ¬ h.Padded) (scan : HeaderScan) :
    scanFields scan hs = { scan with
      contentLength := if hs.any (·.IsNamed "content-length") then n else scan.contentLength
      connectionClose := scan.connectionClose || hs.any (·.hasOption "close")
      connectionKeepAlive := scan.connectionKeepAlive || hs.any (·.hasOption "keep-alive") } := by
  induction hs generalizing scan with
  | nil => simp [scanFields]
  | cons h hs ih =>
    have ih := ih fun h' hh' => hall h' (List.mem_cons_of_mem _ hh')
    rw [scanFields, List.foldl_cons, ← scanFields]
    by_cases hn : h.IsNamed "content-length"
    · obtain ⟨hg, hp⟩ := hall h List.mem_cons_self hn
      have hnot : ¬ h.IsNamed "connection" := by
        unfold HeaderField.IsNamed at hn ⊢
        rw [hn]
        decide
      have hoption (option : String) : h.hasOption option = false := decide_eq_false fun h => hnot h.1
      rw [HeaderField.field_taken hn hg hlt hp, ih]
      simp only [List.any_cons, hoption, decide_eq_true hn, Bool.true_or, Bool.false_or, if_true, ite_self]
    · rw [HeaderField.field_other hn, ih]
      simp only [List.any_cons, decide_eq_false hn, Bool.false_or, Bool.or_assoc]

theorem invalid_field (scan : HeaderScan) (h : HeaderField) (hi : scan.invalidContentLength = true) :
    (scan.field h.name h.trimmed).invalidContentLength = true := by
  unfold HeaderScan.field
  dsimp only
  split
  · split
    · rfl
    · split
      · rfl
      · exact hi
  · split
    · split
      · exact hi
      · split
        · exact hi
        · exact hi
    · exact hi

theorem invalid_scanFields {scan : HeaderScan} (hs : List HeaderField) (hi : scan.invalidContentLength = true) :
    (scanFields scan hs).invalidContentLength = true := by
  induction hs generalizing scan with
  | nil => exact hi
  | cons h hs ih => exact ih (invalid_field scan h hi)

/-- One field that is refused makes the request malformed. -/
theorem scanFields_refused {hs : List HeaderField} {n : Nat} {h : HeaderField} (hh : h ∈ hs)
    (hn : h.IsNamed "content-length") (hg : h.GivesLength n) (hbad : ¬ n < int64Bound ∨ h.Padded) (scan : HeaderScan) :
    (scanFields scan hs).invalidContentLength = true := by
  induction hs generalizing scan with
  | nil => exact absurd hh List.not_mem_nil
  | cons h' hs ih =>
    rcases List.mem_cons.mp hh with rfl | hh
    · refine invalid_scanFields hs ?_
      show (scan.field h.name h.trimmed).invalidContentLength = true
      rw [HeaderField.field_refused hn hg hbad]
    · exact ih hh _

namespace Request
variable {r : Request} {maxBodySize : Nat}

theorem scan_accepted (h : r.Accepted maxBodySize) :
    scanFields {} r.headers =
      { contentLength := r.body.length
        connectionClose := r.parsed.connectionClose
        connectionKeepAlive := r.parsed.connectionKeepAlive } := by
  rw [scanFields_taken h.range fun f hf hn => ⟨r.lengths_agree f hf hn, h.unpadded f hf hn⟩]
  have hlen : (if r.headers.any (·.IsNamed "content-length") then (r.body.length : Int) else 0) = r.body.length := by
    split
    · rfl
    · next hnone =>
      by_contra hne
      have hbody : r.body ≠ [] := by
        rintro hnil
        rw [hnil] at hne
        exact hne rfl
      obtain ⟨f, hf, hn⟩ := r.length_given hbody
      exact hnone (List.any_eq_true.mpr ⟨f, hf, decide_eq_true hn⟩)
  dsimp only
  rw [hlen]
  rfl

/-- A request that is not accepted is refused, as malformed or as too large. -/
theorem scan_refused (h : ¬ r.Accepted maxBodySize) :
    (scanFields {} r.headers).invalidContentLength = true ∨
      (maxBodySize : Int) < (scanFields {} r.headers).contentLength := by
  by_cases hpadded : ∃ f ∈ r.headers, f.IsNamed "content-length" ∧ f.Padded
  · obtain ⟨f, hf, hn, hp⟩ := hpadded
    exact .inl (scanFields_refused hf hn (r.lengths_agree f hf hn) (.inr hp) {})
  · have hun : ∀ f ∈ r.headers, f.IsNamed "content-length" → ¬ f.Padded := fun f hf hn hp => hpadded ⟨f, hf, hn, hp⟩
    have hlong : maxBodySize < r.body.length ∨ ¬ r.body.length < int64Bound := by
      by_contra hnot
      rw [not_or, Nat.not_lt, not_not] at hnot
      exact h ⟨hnot.1, hnot.2, hun⟩
    have hbody : r.body ≠ [] := by
      rintro hnil
      rw [hnil] at hlong
      rcases hlong with hlong | hlong
      · exact Nat.not_lt_zero _ hlong
      · exact hlong (by decide)
    obtain ⟨f, hf, hn⟩ := r.length_given hbody
    by_cases hlt : r.body.length < int64Bound
    · refine .inr ?_
      rw [scanFields_taken hlt fun f hf hn => ⟨r.lengths_agree f hf hn, hun f hf hn⟩]
      dsimp only
      rw [if_pos (List.any_eq_true.mpr ⟨f, hf, decide_eq_true hn⟩)]
      exact Int.ofNat_lt.mpr (hlong.resolve_right (not_not.mpr hlt))
    · exact .inl (scanFields_refused hf hn (r.lengths_agree f hf hn) (.inl hlt) {})

end Request

/-! ## One request -/

section
variable (r : Request) (rest : List Char) (cuts : List Nat) (maxBodySize : Nat)

/-- The bytes there are when the header loop ends, and the cuts that are left. -/
def headerPhase : Nat × List Nat := headerBytes (r.head.length + 2) (r.encode ++ rest).length cuts 0

/-- The request without its body, as the header lines of the buffer tell it. -/
def readHead (buffer : List Char) : HttpRequest × Bool :=
  let scan := scanHeaders (headersOf buffer r.line.length (r.line.length + (fieldLines r.headers).length))
  ({ r.parsed with
      body := [], contentLength := scan.contentLength, connectionClose := scan.connectionClose
      connectionKeepAlive := scan.connectionKeepAlive }, scan.invalidContentLength)

theorem goal_le_headerPhase : r.head.length + 2 ≤ (headerPhase r rest cuts).1 := goal_le_headerBytes

theorem headerPhase_le : (headerPhase r rest cuts).1 ≤ (r.encode ++ rest).length := by
  refine headerBytes_le ?_ (Nat.zero_le _)
  rw [Request.encode, List.append_assoc, List.append_assoc, List.length_append, List.length_append]
  show _ + 2 ≤ _ + (2 + _)
  omega

theorem encode_eq : r.encode ++ rest = r.line ++ (crlf ++ (fieldLines r.headers ++ (crlf ++ (r.body ++ rest)))) := by
  simp [Request.encode, Request.head, fieldLines]

theorem head_length : r.head.length = r.line.length + (fieldLines r.headers).length + 2 := by
  rw [Request.head, List.length_append, List.length_append, ← fieldLines]
  show _ + (2 + _) = _
  omega

theorem cr_not_mem_requestLine : '\r' ∉ r.line := by
  rw [Request.line, List.mem_append, List.mem_cons, List.mem_append, List.mem_cons]
  rintro (h | h | h | h | h)
  · exact r.method_visible.not_mem (by decide) h
  · exact absurd h (by decide)
  · exact r.target_visible.not_mem (by decide) h
  · exact absurd h (by decide)
  · exact r.version_visible.not_mem (by decide) h

theorem find_headerEnd :
    find (crlf ++ crlf) (r.encode ++ rest) = some (r.line.length + (fieldLines r.headers).length) := by
  have hskip := @find_skip Char _ '\r' ['\n', '\r', '\n'] r.line (cr_not_mem_requestLine r)
    (crlf ++ (fieldLines r.headers ++ (crlf ++ (r.body ++ rest))))
  have hfields := find_fieldLines r.headers (r.body ++ rest)
  rw [encode_eq]
  show find ('\r' :: ['\n', '\r', '\n']) _ = _
  rw [hskip]
  show (find (crlf ++ crlf) _).map _ = _
  rw [hfields, Option.map_some, Nat.add_comm]

/-- `read_http_request` on a stream that begins with the bytes of a request. -/
theorem readHttpRequest_eq : readHttpRequest maxBodySize ⟨r.encode ++ rest, cuts⟩ =
    if maxHeaderSize < (headerPhase r rest cuts).1 then none
    else
      let got := (headerPhase r rest cuts).1
      let buffer := (r.encode ++ rest).take got
      some (takeBody maxBodySize (readHead r buffer).1 (readHead r buffer).2 (buffer.drop (r.head.length + 2))
        ⟨(r.encode ++ rest).drop got, (headerPhase r rest cuts).2⟩) := by
  have hgoal : r.line.length + (fieldLines r.headers).length + 4 = r.head.length + 2 := by
    rw [head_length]
  have hheader : readHeader ((r.encode ++ rest).length + 1) [] ⟨r.encode ++ rest, cuts⟩ =
      if maxHeaderSize < (headerPhase r rest cuts).1 then none
      else some (r.line.length + (fieldLines r.headers).length, (r.encode ++ rest).take (headerPhase r rest cuts).1,
        ⟨(r.encode ++ rest).drop (headerPhase r rest cuts).1, (headerPhase r rest cuts).2⟩) := by
    have hloop := readHeader_eq (find_headerEnd r rest) ((r.encode ++ rest).length + 1) 0 cuts (Nat.succ_pos _)
      (by omega)
    rw [hgoal] at hloop
    exact hloop
  unfold readHttpRequest
  rw [hheader]
  by_cases hmax : maxHeaderSize < (headerPhase r rest cuts).1
  · rw [if_pos hmax, if_pos hmax]
    rfl
  · rw [if_neg hmax, if_neg hmax]
    have hbuffer : ((r.encode ++ rest).take (headerPhase r rest cuts).1).length = (headerPhase r rest cuts).1 :=
      List.length_take_of_le (headerPhase_le r rest cuts)
    have hfirst : find crlf ((r.encode ++ rest).take (headerPhase r rest cuts).1) = some r.line.length := by
      have hwhole : find crlf (r.encode ++ rest) = some r.line.length := by
        rw [encode_eq]
        exact find_at (cr_not_mem_requestLine r) _
      rw [← List.take_append_drop (headerPhase r rest cuts).1 (r.encode ++ rest)] at hwhole
      rw [find_of_append hwhole, hbuffer, if_pos]
      have hgoal := goal_le_headerPhase r rest cuts
      rw [head_length] at hgoal
      show r.line.length + 2 ≤ _
      omega
    have hline : ((r.encode ++ rest).take (headerPhase r rest cuts).1).take r.line.length = r.line := by
      have hgoal := goal_le_headerPhase r rest cuts
      rw [head_length] at hgoal
      rw [List.take_take, Nat.min_eq_left (by omega), encode_eq, List.take_left]
    simp only [Option.bind_eq_bind, Option.bind_some, hfirst, hline, parseRequestLine_eq, splitUri_eq, hgoal]
    rfl

theorem encode_length : r.encode.length = r.head.length + 2 + r.body.length := by
  rw [Request.encode, List.length_append, List.length_append]
  exact (Nat.add_assoc ..).symm

theorem drop_head : (r.encode ++ rest).drop (r.head.length + 2) = r.body ++ rest := by
  rw [Request.encode, List.append_assoc, List.append_assoc, ← List.drop_drop, List.drop_left]
  rfl

/-- The bytes of the body that came with the headers. -/
theorem drop_buffer (got : Nat) : ((r.encode ++ rest).take got).drop (r.head.length + 2) =
    (r.body ++ rest).take (got - (r.head.length + 2)) := by
  rw [List.drop_take, drop_head]

/-- The header lines of a buffer that ends in the request. -/
theorem scanHeaders_buffer {got : Nat} (hgoal : r.head.length + 2 ≤ got) (haligned : got ≤ r.encode.length) :
    scanHeaders (headersOf ((r.encode ++ rest).take got) r.line.length
      (r.line.length + (fieldLines r.headers).length)) = scanFields {} r.headers := by
  rw [head_length] at hgoal
  rw [encode_eq]
  refine scanHeaders_eq r.headers r.line _ hgoal fun hnil => ?_
  have hbody : r.body = [] := by
    by_contra hne
    obtain ⟨f, hf, -⟩ := r.length_given hne
    rw [hnil] at hf
    exact absurd hf List.not_mem_nil
  rw [encode_length, head_length, hnil, hbody] at haligned
  rw [hnil] at hgoal
  exact Nat.le_antisymm haligned hgoal

/-- A request that is accepted, with a chunk that ends in it, is read as it was meant. -/
theorem readHttpRequest_accepted (hacc : r.Accepted maxBodySize) (hmax : ¬ maxHeaderSize < (headerPhase r rest cuts).1)
    (haligned : (headerPhase r rest cuts).1 ≤ r.encode.length) :
    readHttpRequest maxBodySize ⟨r.encode ++ rest, cuts⟩ =
      some (r.parsed, ⟨rest, bodyCuts (headerPhase r rest cuts).2 (r.encode.length - (headerPhase r rest cuts).1)⟩) := by
  have hgoal := goal_le_headerPhase r rest cuts
  rw [readHttpRequest_eq, if_neg hmax]
  generalize headerPhase r rest cuts = phase at hgoal haligned ⊢
  have hhead : readHead r ((r.encode ++ rest).take phase.1) = ({ r.parsed with body := [] }, false) := by
    rw [readHead, scanHeaders_buffer r rest hgoal haligned, Request.scan_accepted hacc]
    rfl
  obtain ⟨got, hgot⟩ : ∃ got, got = phase.1 - (r.head.length + 2) := ⟨_, rfl⟩
  rw [encode_length] at haligned
  have hsofar : ((r.encode ++ rest).take phase.1).drop (r.head.length + 2) = r.body.take got := by
    rw [drop_buffer, ← hgot, List.take_append_of_le_length (by omega)]
  have hrest : (r.encode ++ rest).drop phase.1 = (r.body ++ rest).drop got := by
    rw [← drop_head r rest, List.drop_drop, show r.head.length + 2 + got = phase.1 by omega]
  have hbody : readBody r.body.length (maxBodySize + 1) (((r.body ++ rest).drop got).length + 1) (r.body.take got)
      ⟨(r.body ++ rest).drop got, phase.2⟩ = (r.body, ⟨rest, bodyCuts phase.2 (r.body.length - got)⟩) := by
    refine readBody_eq (Nat.lt_succ_of_le hacc.limit) _ got phase.2 (by omega) ?_
    rw [List.length_drop, List.length_append]
    omega
  have hcuts : r.encode.length - phase.1 = r.body.length - got := by
    rw [encode_length]
    omega
  have hlimit : ¬ (maxBodySize : Int) < r.body.length := by
    have := hacc.limit
    omega
  dsimp only
  rw [hhead, hsofar, hrest, hcuts]
  unfold takeBody
  dsimp only
  rw [if_neg Bool.false_ne_true, show r.parsed.contentLength = (r.body.length : Int) from rfl, if_neg hlimit,
    Int.toNat_natCast, hbody]
  dsimp only
  rw [if_neg (Nat.not_lt.mpr hacc.limit)]
  rfl

/-- Whatever the header lines tell, the request is refused or its body is all that came with the headers and more. -/
theorem takeBody_cases (req : HttpRequest) (invalid : Bool) (bodySoFar : List Char) (s : Socket) :
    (takeBody maxBodySize req invalid bodySoFar s).1.contentLength = -2 ∨
      (maxBodySize : Int) < (takeBody maxBodySize req invalid bodySoFar s).1.contentLength ∨
      bodySoFar.length ≤ (takeBody maxBodySize req invalid bodySoFar s).1.body.length := by
  unfold takeBody
  dsimp only
  split
  · exact .inl rfl
  · split
    · exact .inr (.inl (Int.lt_succ _))
    · split
      · exact .inr (.inl (Int.lt_succ _))
      · exact .inr (.inr (length_le_readBody ..))

/-- A request that is not accepted, or with a chunk that goes past its end, is refused or gets a longer body. -/
theorem readHttpRequest_refused (hbad : ¬ r.Accepted maxBodySize ∨ r.encode.length < (headerPhase r rest cuts).1)
    {req : HttpRequest} {s : Socket} (hread : readHttpRequest maxBodySize ⟨r.encode ++ rest, cuts⟩ = some (req, s)) :
    req.contentLength = -2 ∨ (maxBodySize : Int) < req.contentLength ∨ r.body.length < req.body.length := by
  have hgoal := goal_le_headerPhase r rest cuts
  have hlen := headerPhase_le r rest cuts
  rw [readHttpRequest_eq] at hread
  split at hread
  · cases hread
  · obtain rfl := (congrArg Prod.fst (Option.some.inj hread)).symm
    by_cases hlong : r.encode.length < (headerPhase r rest cuts).1
    · rcases takeBody_cases maxBodySize _ _ _ _ with h | h | h
      · exact .inl h
      · exact .inr (.inl h)
      · refine .inr (.inr (Nat.lt_of_lt_of_le ?_ h))
        rw [drop_buffer, List.length_take, List.length_append]
        rw [encode_length] at hlong
        rw [List.length_append, encode_length] at hlen
        omega
    · rw [readHead, scanHeaders_buffer r rest hgoal (Nat.not_lt.mp hlong)]
      unfold takeBody
      dsimp only
      rcases Request.scan_refused (hbad.resolve_right hlong) with hinvalid | hlarge
      · rw [if_pos hinvalid]
        exact .inl rfl
      · split
        · exact .inl rfl
        · exact .inr (.inl (Int.lt_succ _))

end

/-! ## The whole stream -/

theorem serveLoop_nil (maxBodySize fuel : Nat) (cuts : List Nat) : serveLoop maxBodySize fuel ⟨[], cuts⟩ = [] := by
  cases fuel with
  | zero => rfl
  | succ fuel =>
    have hnone : readHttpRequest maxBodySize ⟨[], cuts⟩ = none := by
      unfold readHttpRequest readHeader Socket.recv
      simp
    rw [serveLoop, hnone]

/-- The loop hands out a request that is accepted and goes on after it. -/
theorem serveLoop_accepted {r : Request} {rest : List Char} {cuts : List Nat} {maxBodySize : Nat} (fuel : Nat)
    (hacc : r.Accepted maxBodySize) (hmax : (headerPhase r rest cuts).1 ≤ maxHeaderSize)
    (haligned : (headerPhase r rest cuts).1 ≤ r.encode.length) :
    serveLoop maxBodySize (fuel + 1) ⟨r.encode ++ rest, cuts⟩ =
      r.parsed :: if r.parsed.keepAlive then serveLoop maxBodySize fuel
        ⟨rest, bodyCuts (headerPhase r rest cuts).2 (r.encode.length - (headerPhase r rest cuts).1)⟩ else [] := by
  have hlimit := hacc.limit
  have hlen : r.parsed.contentLength = (r.body.length : Int) := rfl
  rw [serveLoop, readHttpRequest_accepted r rest cuts maxBodySize hacc (Nat.not_lt.mpr hmax) haligned]
  dsimp only
  rw [if_neg (by omega), if_neg (by omega)]

/-- Otherwise what it hands out next is not the request. -/
theorem serveLoop_refused {r : Request} {rest : List Char} {cuts : List Nat} {maxBodySize : Nat} (fuel : Nat)
    (hbad : ¬ (r.Accepted maxBodySize ∧ (headerPhase r rest cuts).1 ≤ r.encode.length ∧
      (headerPhase r rest cuts).1 ≤ maxHeaderSize)) (tail : List HttpRequest) :
    serveLoop maxBodySize fuel ⟨r.encode ++ rest, cuts⟩ ≠ r.parsed :: tail := by
  cases fuel with
  | zero => exact (List.cons_ne_nil _ _).symm
  | succ fuel =>
    rw [serveLoop]
    cases hread : readHttpRequest maxBodySize ⟨r.encode ++ rest, cuts⟩ with
    | none => exact (List.cons_ne_nil _ _).symm
    | some result =>
      have hnot : ¬ r.Accepted maxBodySize ∨ r.encode.length < (headerPhase r rest cuts).1 := by
        by_contra hgood
        rw [not_or, not_not, Nat.not_lt] at hgood
        refine hbad ⟨hgood.1, hgood.2, Nat.not_lt.mp fun hmax => ?_⟩
        rw [readHttpRequest_eq, if_pos hmax] at hread
        cases hread
      have hresult := readHttpRequest_refused r rest cuts maxBodySize hnot hread
      dsimp only
      split
      · exact (List.cons_ne_nil _ _).symm
      · next hvalid =>
        split
        · exact (List.cons_ne_nil _ _).symm
        · next hsmall =>
          intro heq
          have hbody := hresult.resolve_left hvalid
          rw [(List.cons.inj heq).1] at hbody hsmall
          rcases hbody with hlarge | hlong
          · exact hsmall hlarge
          · exact Nat.lt_irrefl _ hlong

theorem serveLoop_eq_iff {maxBodySize : Nat} (rs : List Request) (cuts : List Nat) {fuel : Nat}
    (hfuel : (encodeAll rs).length < fuel) :
    serveLoop maxBodySize fuel ⟨encodeAll rs, cuts⟩ = rs.map Request.parsed ↔
      (∀ r ∈ rs, r.Accepted maxBodySize) ∧ (∀ r ∈ rs.dropLast, r.parsed.keepAlive = true) ∧ Aligned rs cuts := by
  induction rs generalizing cuts fuel with
  | nil => exact iff_of_true (serveLoop_nil ..) ⟨nofun, nofun, trivial⟩
  | cons r rs ih =>
    obtain ⟨fuel, rfl⟩ : ∃ n, fuel = n + 1 := Nat.exists_eq_add_of_lt (Nat.lt_of_le_of_lt (Nat.zero_le _) hfuel) |>.imp
      fun n hn => by omega
    have hstream : encodeAll (r :: rs) = r.encode ++ encodeAll rs := List.flatMap_cons
    have hphase : headerBytes (r.head.length + 2) (encodeAll (r :: rs)).length cuts 0 =
      headerPhase r (encodeAll rs) cuts := by rw [hstream, headerPhase]
    have haligned : Aligned (r :: rs) cuts ↔ (headerPhase r (encodeAll rs) cuts).1 ≤ r.encode.length ∧
        (headerPhase r (encodeAll rs) cuts).1 ≤ maxHeaderSize ∧
        Aligned rs (bodyCuts (headerPhase r (encodeAll rs) cuts).2
          (r.encode.length - (headerPhase r (encodeAll rs) cuts).1)) := by
      rw [Aligned, hphase]
    rw [hstream, List.map_cons, haligned, List.forall_mem_cons]
    by_cases hgood : r.Accepted maxBodySize ∧ (headerPhase r (encodeAll rs) cuts).1 ≤ r.encode.length ∧
        (headerPhase r (encodeAll rs) cuts).1 ≤ maxHeaderSize
    · obtain ⟨hacc, hends, hmax⟩ := hgood
      have hshorter : (encodeAll rs).length < fuel := by
        rw [hstream, List.length_append, encode_length] at hfuel
        omega
      have ih := ih (bodyCuts (headerPhase r (encodeAll rs) cuts).2
        (r.encode.length - (headerPhase r (encodeAll rs) cuts).1)) hshorter
      rw [serveLoop_accepted fuel hacc hmax hends, List.cons_inj_right]
      cases hkeep : r.parsed.keepAlive with
      | true =>
        have hlast : (∀ x ∈ (r :: rs).dropLast, x.parsed.keepAlive = true) ↔
            ∀ x ∈ rs.dropLast, x.parsed.keepAlive = true := by
          cases rs with
          | nil => exact Iff.rfl
          | cons r' rs => rw [List.dropLast_cons_cons, List.forall_mem_cons, and_iff_right hkeep]
        rw [if_pos rfl, ih, hlast]
        exact ⟨fun h => ⟨⟨hacc, h.1⟩, h.2.1, hends, hmax, h.2.2⟩, fun h => ⟨h.1.2, h.2.1, h.2.2.2.2⟩⟩
      | false =>
        rw [if_neg Bool.false_ne_true]
        cases rs with
        | nil => exact iff_of_true rfl ⟨⟨hacc, nofun⟩, nofun, hends, hmax, trivial⟩
        | cons r' rs =>
          refine iff_of_false (List.cons_ne_nil _ _).symm fun h => ?_
          exact absurd (hkeep.symm.trans (h.2.1 r (by simp))) Bool.false_ne_true
    · refine iff_of_false (serveLoop_refused _ hgood _) fun hall => hgood ⟨hall.1.1, hall.2.2.1, hall.2.2.2.1⟩

def host : HeaderField where
  name := "Host".toList
  value := " a".toList
  name_ne := by decide
  name_visible := by decide
  name_colon := by decide
  value_text := by decide

def health : Request where
  method := "GET".toList
  target := "/health".toList
  version := "HTTP/1.1".toList
  headers := [host]
  body := []
  method_visible := by decide
  target_visible := by decide
  version_visible := by decide
  length_given := nofun
  lengths_agree h hh hn := by
    cases List.mem_singleton.mp hh
    exact absurd hn (by decide)
  not_chunked h hh hn := by
    cases List.mem_singleton.mp hh
    exact absurd hn (by decide)

end Pineapple.Http
