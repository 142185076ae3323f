import Mathlib.Data.List.TakeWhile
import Mathlib.Tactic.ByContra
import Pineapple.HttpRequest

/-! # What the loop hands out of a stream of well-formed requests

A request as a client means it and its bytes, how many bytes the calls of `recv` bring of it, and what the
keep-alive loop makes of the stream. -/

namespace Pineapple.Http

open Search

/-! ## Requests -/

/-- A printable character other than the space: what method, target, version and field names are made of. -/
def Visible (l : List Char) : Prop := ∀ c ∈ l, ' ' < c

instance (l : List Char) : Decidable (Visible l) := List.decidableBAll _ l

def Blank (c : Char) : Prop := c = ' ' ∨ c = '\t'

structure HeaderField where
  name : List Char
  /-- with the blanks around it -/
  value : List Char
  name_ne : name ≠ []
  name_visible : Visible name
  name_colon : ':' ∉ name
  value_text : '\r' ∉ value ∧ '\n' ∉ value

namespace HeaderField

def line (h : HeaderField) : List Char := h.name ++ ':' :: h.value

def IsNamed (h : HeaderField) (name : String) : Prop := h.name.map Char.toLower = name.toList

instance (h : HeaderField) (name : String) : Decidable (h.IsNamed name) := inferInstanceAs (Decidable (_ = _))

/-- The value without the spaces before it. -/
def trimmed (h : HeaderField) : List Char := h.value.dropWhile (· = ' ')

/-- The field gives the length `n`, in digits with blanks around them. -/
def GivesLength (h : HeaderField) (n : Nat) : Prop :=
  ∃ pre digits post, h.value = pre ++ (digits ++ post) ∧ (∀ c ∈ pre, Blank c) ∧ (∀ c ∈ post, Blank c) ∧
    digits ≠ [] ∧ digits.all Char.isDigit = true ∧ digitsValue digits = n

/-- The value ends in a blank. -/
def Padded (h : HeaderField) : Prop := ∃ c ∈ h.value.getLast?, Blank c

def hasOption (h : HeaderField) (option : String) : Bool :=
  h.IsNamed "connection" ∧ h.trimmed.map Char.toLower = option.toList

end HeaderField

/-- A well-formed request with its length in `Content-Length`. -/
structure Request where
  method : List Char
  target : List Char
  version : List Char
  headers : List HeaderField
  body : List Char
  method_visible : Visible method
  target_visible : Visible target
  version_visible : Visible version
  length_given : body ≠ [] → ∃ h ∈ headers, h.IsNamed "content-length"
  lengths_agree : ∀ h ∈ headers, h.IsNamed "content-length" → h.GivesLength body.length
  not_chunked : ∀ h ∈ headers, ¬ h.IsNamed "transfer-encoding"

namespace Request

def line (r : Request) : List Char := r.method ++ ' ' :: (r.target ++ ' ' :: r.version)

def head (r : Request) : List Char := r.line ++ (crlf ++ r.headers.flatMap fun h => h.line ++ crlf)

def encode (r : Request) : List Char := r.head ++ (crlf ++ r.body)

/-- What is to be handed out. -/
def parsed (r : Request) : HttpRequest where
  method := r.method
  path := r.target.takeWhile (· ≠ '?')
  queryString := (r.target.dropWhile (· ≠ '?')).drop 1
  body := r.body
  contentLength := r.body.length
  connectionClose := r.headers.any (·.hasOption "close")
  httpVersion := r.version
  connectionKeepAlive := r.headers.any (·.hasOption "keep-alive")

/-- The body is within the limit and its length one that `stoll` takes whole. -/
structure Accepted (maxBodySize : Nat) (r : Request) : Prop where
  limit : r.body.length ≤ maxBodySize
  range : r.body.length < int64Bound
  unpadded : ∀ h ∈ r.headers, h.IsNamed "content-length" → ¬ h.Padded

end Request

def encodeAll (rs : List Request) : List Char := rs.flatMap Request.encode

/-! ## How many bytes the calls bring -/

/-- The bytes there are once `goal` of the `avail` bytes to come have been asked for in whole chunks, and the
cuts that are left. -/
def headerBytes (goal avail : Nat) : List Nat → Nat → Nat × List Nat
  | [], got => (max got goal, [])
  | c :: cuts, got =>
    if goal ≤ got then (got, c :: cuts) else headerBytes goal avail cuts (min avail (got + min chunkSize (c + 1)))

/-- The cuts that are left once `need` more bytes have been asked for and no others. -/
def bodyCuts : List Nat → Nat → List Nat
  | [], _ => []
  | c :: cuts, need => if need = 0 then c :: cuts else bodyCuts cuts (need - min chunkSize (c + 1))

/-- The chunk that completes the headers of a request ends within that request and the limit, request by
request. -/
def Aligned : List Request → List Nat → Prop
  | [], _ => True
  | r :: rs, cuts =>
    let got := headerBytes (r.head.length + 2) (encodeAll (r :: rs)).length cuts 0
    got.1 ≤ r.encode.length ∧ got.1 ≤ maxHeaderSize ∧ Aligned rs (bodyCuts got.2 (r.encode.length - got.1))

theorem headerBytes_of_le {goal avail got : Nat} {cuts : List Nat} (h : goal ≤ got) :
    headerBytes goal avail cuts got = (got, cuts) := by
  cases cuts with
  | nil => rw [headerBytes, Nat.max_eq_left h]
  | cons c cuts => rw [headerBytes, if_pos h]

theorem le_headerBytes {goal avail got : Nat} {cuts : List Nat} (h : got ≤ avail) :
    got ≤ (headerBytes goal avail cuts got).1 := by
  induction cuts generalizing got with
  | nil => exact Nat.le_max_left ..
  | cons c cuts ih =>
    rw [headerBytes]
    split
    · exact Nat.le_refl _
    · have hle : got ≤ min avail (got + min chunkSize (c + 1)) := by omega
      exact Nat.le_trans hle (ih (Nat.min_le_left ..))

theorem goal_le_headerBytes {goal avail got : Nat} {cuts : List Nat} :
    goal ≤ (headerBytes goal avail cuts got).1 := by
  induction cuts generalizing got with
  | nil => exact Nat.le_max_right ..
  | cons c cuts ih =>
    rw [headerBytes]
    split
    · next hgot => exact hgot
    · exact ih

theorem headerBytes_le {goal avail got : Nat} {cuts : List Nat} (h : goal ≤ avail) (hgot : got ≤ avail) :
    (headerBytes goal avail cuts got).1 ≤ avail := by
  induction cuts generalizing got with
  | nil => exact Nat.max_le.mpr ⟨hgot, h⟩
  | cons c cuts ih =>
    rw [headerBytes]
    split
    · exact hgot
    · exact ih (Nat.min_le_left ..)

/-! ## The two loops -/

/-- The header loop on a stream whose headers end at `k`. -/
theorem readHeader_eq {stream : List Char} {k : Nat} (hk : find (crlf ++ crlf) stream = some k) (fuel got : Nat)
    (cuts : List Nat) (hgot : got < k + 4) (hfuel : stream.length - got < fuel) :
    readHeader fuel (stream.take got) ⟨stream.drop got, cuts⟩ =
      if maxHeaderSize < (headerBytes (k + 4) stream.length cuts got).1 then none
      else some (k, stream.take (headerBytes (k + 4) stream.length cuts got).1,
        ⟨stream.drop (headerBytes (k + 4) stream.length cuts got).1, (headerBytes (k + 4) stream.length cuts got).2⟩) := by
  induction fuel generalizing got cuts with
  | zero => omega
  | succ fuel ih =>
    have hle : k + 4 ≤ stream.length := find_length_le hk
    -- the bytes there are after this call
    obtain ⟨next, hnext⟩ : ∃ next, next = min stream.length (got + min chunkSize (cuts.headD 0 + 1)) := ⟨_, rfl⟩
    have hpos : 0 < min chunkSize (cuts.headD 0 + 1) := Nat.lt_min.mpr ⟨by decide, Nat.succ_pos _⟩
    have hlt : got < next := by omega
    have hbytes : headerBytes (k + 4) stream.length cuts got = headerBytes (k + 4) stream.length cuts.tail next := by
      cases cuts with
      | nil =>
        have hone : min chunkSize (([] : List Nat).headD 0 + 1) = 1 := rfl
        rw [hone] at hnext
        show (max got (k + 4), []) = (max next (k + 4), [])
        rw [show max got (k + 4) = max next (k + 4) by omega]
      | cons c cuts => rw [headerBytes, if_neg (Nat.not_le.mpr hgot), hnext, List.headD_cons, List.tail_cons]
    obtain ⟨chunk, hchunk⟩ : ∃ chunk, chunk = (stream.drop got).take (min chunkSize (cuts.headD 0 + 1)) := ⟨_, rfl⟩
    have htake : stream.take got ++ chunk = stream.take next := by
      rw [hchunk, ← List.take_add, List.take_eq_take_iff]
      omega
    have hrecv : Socket.recv chunkSize ⟨stream.drop got, cuts⟩ = (chunk, ⟨stream.drop next, cuts.tail⟩) := by
      have hdrop : (stream.drop got).drop (min chunkSize (cuts.headD 0 + 1)) = stream.drop next := by
        rw [List.drop_drop, List.drop_eq_drop_iff]
        omega
      rw [hchunk, ← hdrop]
      rfl
    have hne : chunk ≠ [] := by
      intro hnil
      have hlen := congrArg List.length hchunk
      rw [hnil, List.length_take, List.length_drop, List.length_nil] at hlen
      omega
    have hlen : (stream.take next).length = next := by
      rw [List.length_take]
      omega
    have hfind : find (crlf ++ crlf) (stream.take next) = if k + 4 ≤ next then some k else none := by
      have hsplit : find (crlf ++ crlf) (stream.take next ++ stream.drop next) = some k := by
        rw [List.take_append_drop]
        exact hk
      rw [find_of_append hsplit, hlen]
      rfl
    rw [readHeader, hrecv]
    dsimp only
    rw [if_neg hne, htake, hlen, hbytes]
    by_cases hmax : maxHeaderSize < next
    · rw [if_pos hmax, if_pos (Nat.lt_of_lt_of_le hmax (le_headerBytes (by omega)))]
    · rw [if_neg hmax, hfind]
      by_cases hdone : k + 4 ≤ next
      · rw [if_pos hdone, headerBytes_of_le hdone, if_neg hmax]
      · rw [if_neg hdone]
        exact ih next cuts.tail (by omega) (by omega)

/-- The body loop reads the body of a request whose bytes are to come, and nothing else. -/
theorem readBody_eq {body rest : List Char} {hardCap : Nat} (hcap : body.length < hardCap) (fuel got : Nat)
    (cuts : List Nat) (hgot : got ≤ body.length) (hfuel : body.length - got < fuel) :
    readBody body.length hardCap fuel (body.take got) ⟨(body ++ rest).drop got, cuts⟩ =
      (body, ⟨rest, bodyCuts cuts (body.length - got)⟩) := by
  induction fuel generalizing got cuts with
  | zero => omega
  | succ fuel ih =>
    have hlen : (body.take got).length = got := by
      rw [List.length_take]
      omega
    rw [readBody, hlen]
    by_cases hdone : body.length ≤ got
    · have heq : got = body.length := Nat.le_antisymm hgot hdone
      subst heq
      rw [if_pos (.inl (Nat.le_refl _)), List.take_length, List.drop_left, Nat.sub_self]
      cases cuts with
      | nil => rfl
      | cons c cuts => rw [bodyCuts, if_pos rfl]
    · have hnot : ¬ hardCap < got + min chunkSize (body.length - got) := by omega
      rw [if_neg (by omega)]
      simp only [if_neg hnot, Socket.recv]
      obtain ⟨n, hn⟩ : ∃ n, n = min (min chunkSize (body.length - got)) (cuts.headD 0 + 1) := ⟨_, rfl⟩
      have hchunk : 0 < chunkSize := by decide
      have hnpos : 0 < n := by omega
      have hnle : got + n ≤ body.length := by omega
      have htake : ((body ++ rest).drop got).take n = (body.drop got).take n := by
        rw [List.drop_append_of_le_length hgot, List.take_append_of_le_length]
        rw [List.length_drop]
        omega
      have hne : (body.drop got).take n ≠ [] := by
        intro hnil
        have := congrArg List.length hnil
        rw [List.length_take, List.length_drop, List.length_nil] at this
        omega
      rw [← hn, htake, if_neg hne, ← List.take_add, List.drop_drop, ih (got + n) cuts.tail hnle (by omega)]
      cases cuts with
      | nil => rfl
      | cons c cuts =>
        rw [bodyCuts, if_neg (by omega), List.tail_cons]
        rw [List.headD_cons] at hn
        rw [show body.length - (got + n) = body.length - got - min chunkSize (c + 1) by omega]

theorem length_le_readBody (contentLength hardCap fuel : Nat) (body : List Char) (s : Socket) :
    body.length ≤ (readBody contentLength hardCap fuel body s).1.length := by
  induction fuel generalizing body s with
  | zero => exact Nat.le_refl _
  | succ fuel ih =>
    rw [readBody]
    split
    · exact Nat.le_refl _
    · dsimp only
      generalize (if hardCap < body.length + min chunkSize (contentLength - body.length) then hardCap - body.length
        else min chunkSize (contentLength - body.length)) = want
      split
      · exact Nat.le_refl _
      · refine Nat.le_trans ?_ (ih ..)
        rw [List.length_append]
        exact Nat.le_add_right ..

end Pineapple.Http
