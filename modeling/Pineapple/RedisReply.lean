import Pineapple.Numerals
import Pineapple.Lib.Channel

/-! # Replies and how the Redis client reads them (`redis_client.cpp`)

A reply as the server means it and its bytes; the functions of the client that read, down to the calls of `read`.
Texts, keys and values are byte strings. -/

namespace Pineapple.Redis

inductive Reply
  | simple (text : List Char)
  | error (text : List Char)
  | integer (n : Int)
  | bulk (data : Option (List Char))
  | array (elements : Option (List Reply))

mutual

def Reply.encode : Reply → List Char
  | .simple text => '+' :: (text ++ crlf)
  | .error text => '-' :: (text ++ crlf)
  | .integer n => ':' :: (decimalInt n ++ crlf)
  | .bulk none => '$' :: (decimalInt (-1) ++ crlf)
  | .bulk (some data) => '$' :: (decimalInt data.length ++ crlf ++ (data ++ crlf))
  | .array none => '*' :: (decimalInt (-1) ++ crlf)
  | .array (some elements) => '*' :: (decimalInt elements.length ++ crlf ++ encodeElements elements)

def encodeElements : List Reply → List Char
  | [] => []
  | r :: rs => r.encode ++ encodeElements rs

end

/-- What a server may send: a line has no line end in it, and numbers are in range. -/
inductive Reply.WellFormed : Reply → Prop
  | simple {text} : '\r' ∉ text → WellFormed (.simple text)
  | error {text} : '\r' ∉ text → WellFormed (.error text)
  | integer {n} : -(int64Bound : Int) ≤ n → n < int64Bound → WellFormed (.integer n)
  | null : WellFormed (.bulk none)
  | bulk {data} : data.length < int32Bound → WellFormed (.bulk (some data))
  | nullArray : WellFormed (.array none)
  | array {elements} : elements.length < int32Bound → (∀ r ∈ elements, WellFormed r) →
      WellFormed (.array (some elements))

/-! ## The reading functions -/

/-- The client's functions, with the texts of their exceptions. -/
abbrev Client (α : Type) : Type := Session (List Char) α

def readFailed : List Char := "redis read failed".toList

def chunkSize : Nat := 4096

def ensureLoop : Nat → Nat → Client Unit
  | 0, _ => pure ()
  | fuel + 1, need => fun c =>
    if need ≤ c.buffer.length then (.ok (), c)
    else
      match c.receive chunkSize with
      | none => (.error readFailed, c)
      | some (chunk, c) => ensureLoop fuel need { c with buffer := c.buffer ++ chunk }

/-- `ensure_bytes`: each round but the last brings a byte. -/
def ensureBytes (need : Nat) : Client Unit := ensureLoop need need

/-- `read_buf_[read_pos_++]`. -/
def nextByte : Client Char := fun c =>
  match c.buffer with
  | b :: rest => (.ok b, { c with buffer := rest })
  | [] => (.error readFailed, c)

def readByte : Client Char := do
  ensureBytes 1
  nextByte

def readType : Client Char := readByte

def readIntoLoop : Nat → Nat → Client (List Char)
  | 0, _ => pure []
  | fuel + 1, n => fun c =>
    if n = 0 then (.ok [], c)
    else if c.buffer = [] then
      match c.receive n with
      | none => (.error readFailed, c)
      | some (got, c) => (readIntoLoop fuel (n - got.length) >>= fun rest => pure (got ++ rest)) c
    else
      let got := c.buffer.take n
      (readIntoLoop fuel (n - got.length) >>= fun rest => pure (got ++ rest)) { c with buffer := c.buffer.drop n }

/-- `read_into`: the `n` bytes; each round takes one of them or more. -/
def readInto (n : Nat) : Client (List Char) := readIntoLoop n n

def readLineLoop : Nat → List Char → Client (List Char)
  | 0, _ => throw readFailed
  | fuel + 1, line => do
    let c ← readByte
    if c = '\r' then
      let lf ← readByte
      if lf ≠ '\n' then throw "redis protocol error".toList else return line
    else readLineLoop fuel (line ++ [c])

/-- `read_line`: each round takes a byte of those to come. -/
def readLine : Client (List Char) := fun c => readLineLoop (c.pending.length + 1) [] c

def readSimpleString : Client (List Char) := readLine

def readError : Client (List Char) := readLine

def readInteger : Client Int := do
  let line ← readLine
  match stoll line with
  | none => throw "stoll".toList
  | some (n, _) => return n

/-- The length or the count that a line gives. -/
def readCount : Client Int := do
  let line ← readLine
  match stoi line with
  | none => throw "stoi".toList
  | some (n, _) => return n

def readBulkString : Client (Option (List Char)) := do
  let len ← readCount
  if len < 0 then return none
  else
    let data ← readInto len.toNat
    let cr ← readByte
    let lf ← readByte
    if cr ≠ '\r' ∨ lf ≠ '\n' then throw "redis protocol error: missing CRLF after bulk".toList
    else return some data

def redisError (text : List Char) : List Char := "redis error: ".toList ++ text

def errorReply (α : Type) : Client α := do
  let text ← readError
  throw (redisError text)

/-- One element of an array. -/
def readElement : Client (Option (List Char)) := do
  let type ← readType
  if type = '$' then readBulkString
  else if type = '+' then some <$> readSimpleString
  else if type = ':' then (fun n => some (decimalInt n)) <$> readInteger
  else if type = '-' then errorReply _
  else throw "redis: unexpected type in array".toList

def readElements : Nat → Client (List (Option (List Char)))
  | 0 => pure []
  | n + 1 => do
    let element ← readElement
    let rest ← readElements n
    return element :: rest

def readArray : Client (List (Option (List Char))) := do
  let count ← readCount
  if count < 0 then return [] else readElements count.toNat

/-! ## What they consume -/

open Session Channel

theorem receive_some {want : Nat} {c : Channel} (hw : 0 < want) (ha : 0 < c.arrives) (hu : c.unread ≠ []) :
    ∃ n, 0 < n ∧ n ≤ want ∧ n ≤ c.arrives ∧ n ≤ c.unread.length ∧ c.receive want =
      some (c.unread.take n, { c with unread := c.unread.drop n, arrives := c.arrives - n, cuts := c.cuts.tail }) := by
  have := List.length_pos_iff.mpr hu
  refine ⟨min (min want (c.cuts.headD 0 + 1)) (min c.arrives c.unread.length), by omega, by omega, by omega, by omega, ?_⟩
  unfold receive
  dsimp only
  rw [if_neg (by omega)]

theorem receive_none {want : Nat} {c : Channel} (h : c.arrives = 0) : c.receive want = none := by
  unfold receive
  rw [h]
  dsimp only
  rw [if_pos (by omega)]

/-- Bytes taken from the unread ones into the buffer are still to come. -/
theorem took_receive {c : Channel} {n : Nat} (hn : n ≤ c.arrives) (hlen : n ≤ c.unread.length) :
    c.Took { c with
      buffer := c.buffer ++ c.unread.take n, unread := c.unread.drop n, arrives := c.arrives - n, cuts := c.cuts.tail } 0
    where
  pending := by
    show (c.buffer ++ c.unread.take n) ++ c.unread.drop n = _
    rw [List.append_assoc, List.take_append_drop]
    rfl
  budget := by
    show (c.buffer ++ c.unread.take n).length + (c.arrives - n) + 0 = c.buffer.length + c.arrives
    rw [List.length_append, List.length_take]
    omega
  answers := rfl
  intact := rfl

/-- Bytes taken from the buffer. -/
theorem took_buffer {c : Channel} {n : Nat} (hn : n ≤ c.buffer.length) :
    c.Took { c with buffer := c.buffer.drop n } n where
  pending := (List.drop_append_of_le_length hn).symm
  budget := by
    show (c.buffer.drop n).length + c.arrives + n = c.buffer.length + c.arrives
    rw [List.length_drop]
    omega
  answers := rfl
  intact := rfl

/-- Unread bytes taken with nothing in the buffer. -/
theorem took_direct {c : Channel} {n : Nat} (hbuffer : c.buffer = []) (hn : n ≤ c.arrives) :
    c.Took { c with unread := c.unread.drop n, arrives := c.arrives - n, cuts := c.cuts.tail } n where
  pending := by
    show c.buffer ++ c.unread.drop n = (c.buffer ++ c.unread).drop n
    rw [hbuffer]
    rfl
  budget := by
    show c.buffer.length + (c.arrives - n) + n = c.buffer.length + c.arrives
    omega
  answers := rfl
  intact := rfl

theorem ensureLoop_succ (fuel need : Nat) (c : Channel) : ensureLoop (fuel + 1) need c =
    if need ≤ c.buffer.length then (.ok (), c)
    else
      match c.receive chunkSize with
      | none => (.error readFailed, c)
      | some (chunk, c) => ensureLoop fuel need { c with buffer := c.buffer ++ chunk } := rfl

theorem readIntoLoop_succ (fuel n : Nat) (c : Channel) : readIntoLoop (fuel + 1) n c =
    if n = 0 then (.ok [], c)
    else if c.buffer = [] then
      match c.receive n with
      | none => (.error readFailed, c)
      | some (got, c) => (readIntoLoop fuel (n - got.length) >>= fun rest => pure (got ++ rest)) c
    else
      let got := c.buffer.take n
      (readIntoLoop fuel (n - got.length) >>= fun rest => pure (got ++ rest)) { c with buffer := c.buffer.drop n } :=
  rfl

theorem ensureBytes_one {c : Channel} {b : Char} (hp : [b] <+: c.pending) (hb : 0 < c.budget) :
    ∃ c', ensureBytes 1 c = (.ok (), c') ∧ c.Took c' 0 ∧ [b] <+: c'.buffer := by
  unfold ensureBytes
  rw [ensureLoop_succ]
  by_cases hbuffer : c.buffer = []
  · have hunread : [b] <+: c.unread := by
      rw [Channel.pending, hbuffer] at hp
      exact hp
    have harrives : 0 < c.arrives := by
      rw [budget, hbuffer] at hb
      exact Nat.lt_of_lt_of_eq hb (Nat.zero_add _)
    have hne : c.unread ≠ [] := by
      rintro hnil
      rw [hnil] at hunread
      exact Nat.not_succ_le_zero 0 hunread.length_le
    obtain ⟨n, hpos, -, hna, hnu, hreceive⟩ := receive_some (by decide : 0 < chunkSize) harrives hne
    refine ⟨_, ?_, took_receive hna hnu, ?_⟩
    · have hempty : ¬ 1 ≤ c.buffer.length := by
        rw [hbuffer]
        exact Nat.not_succ_le_zero 0
      rw [if_neg hempty, hreceive]
      rfl
    · show [b] <+: c.buffer ++ c.unread.take n
      rw [hbuffer, List.nil_append, List.prefix_take_iff]
      exact ⟨hunread, hpos⟩
  · refine ⟨c, if_pos (List.length_pos_iff.mpr hbuffer), .refl c, ?_⟩
    refine List.prefix_of_prefix_length_le hp (List.prefix_append ..) ?_
    exact List.length_pos_iff.mpr hbuffer

theorem reads_byte (b : Char) : Reads readByte [b] (.ok b) where
  full c hp hb := by
    obtain ⟨c', hensure, htook, hbuffer⟩ := ensureBytes_one hp hb
    obtain ⟨rest, hrest⟩ := hbuffer
    refine ⟨{ c' with buffer := rest }, (bind_ok hensure).trans ?_, ?_⟩
    · unfold nextByte
      rw [← hrest]
      rfl
    · have hdrop : rest = c'.buffer.drop 1 := by rw [← hrest]; rfl
      have hlen : 1 ≤ c'.buffer.length := by
        rw [← hrest]
        exact Nat.succ_pos _
      rw [hdrop]
      exact Nat.zero_add 1 ▸ htook.trans (took_buffer hlen)
  short c hp hb := by
    have hzero : c.budget = 0 := Nat.lt_one_iff.mp hb
    obtain ⟨hbuffer, harrives⟩ := Nat.add_eq_zero_iff.mp hzero
    refine ⟨readFailed, c, bind_error ?_, hzero ▸ .refl c⟩
    unfold ensureBytes
    rw [ensureLoop_succ, hbuffer, if_neg (Nat.not_succ_le_zero 0), receive_none harrives]

/-- A line, read with fuel for its bytes. -/
theorem reads_lineLoop {text : List Char} (htext : '\r' ∉ text) (fuel : Nat) (hfuel : text.length < fuel)
    (line : List Char) : Reads (readLineLoop fuel line) (text ++ crlf) (.ok (line ++ text)) := by
  induction text generalizing fuel line with
  | nil =>
    obtain ⟨fuel, rfl⟩ := Nat.exists_eq_add_of_lt hfuel
    rw [List.append_nil]
    exact (reads_byte '\r').bind ((reads_byte '\n').bind (.pure line))
  | cons b text ih =>
    obtain ⟨fuel, rfl⟩ : ∃ n, fuel = n + 1 := ⟨fuel - 1, by omega⟩
    have hb : b ≠ '\r' := fun heq => htext (heq ▸ List.mem_cons_self)
    have ih := ih (fun hm => htext (List.mem_cons_of_mem _ hm)) fuel (Nat.lt_of_succ_lt_succ hfuel) (line ++ [b])
    rw [List.append_assoc] at ih
    refine (reads_byte b).bind ?_
    rw [if_neg hb]
    exact ih

theorem reads_line {text : List Char} (htext : '\r' ∉ text) : Reads readLine (text ++ crlf) (.ok text) where
  full c hp hb := by
    have hlen := hp.length_le
    rw [List.length_append] at hlen
    exact (reads_lineLoop htext (c.pending.length + 1) (by omega) []).full c hp hb
  short c hp hb := by
    have hlen := hp.length_le
    rw [List.length_append] at hlen
    exact (reads_lineLoop htext (c.pending.length + 1) (by omega) []).short c hp hb

/-- One round of `read_into` takes a byte or more of those wanted, or fails where none comes. -/
theorem readIntoLoop_step (fuel : Nat) {data : List Char} {c : Channel} (hne : data ≠ []) (hp : data <+: c.pending)
    (hb : 0 < c.budget) :
    ∃ k c', 0 < k ∧ k ≤ data.length ∧ c.Took c' k ∧ readIntoLoop (fuel + 1) data.length c =
      (readIntoLoop fuel (data.drop k).length >>= fun rest => pure (data.take k ++ rest)) c' := by
  have hlen : 0 < data.length := List.length_pos_iff.mpr hne
  by_cases hbuffer : c.buffer = []
  · have hunread : data <+: c.unread := by
      rw [Channel.pending, hbuffer] at hp
      exact hp
    have harrives : 0 < c.arrives := by
      rw [budget, hbuffer] at hb
      exact Nat.lt_of_lt_of_eq hb (Nat.zero_add _)
    have hsent : c.unread ≠ [] := by
      intro hnil
      rw [hnil] at hunread
      exact hne (List.prefix_nil.mp hunread)
    obtain ⟨k, hpos, hk, hka, -, hreceive⟩ := receive_some hlen harrives hsent
    have htake : c.unread.take k = data.take k := by
      obtain ⟨t, ht⟩ := hunread
      rw [← ht, List.take_append_of_le_length hk]
    refine ⟨k, _, hpos, hk, took_direct hbuffer hka, ?_⟩
    rw [readIntoLoop_succ, if_neg hlen.ne', if_pos hbuffer, hreceive, htake]
    dsimp only
    rw [List.length_take_of_le hk, List.length_drop]
  · have hpos : 0 < c.buffer.length := List.length_pos_iff.mpr hbuffer
    have hk : min data.length c.buffer.length ≤ data.length := Nat.min_le_left ..
    have htake : c.buffer.take data.length = data.take (min data.length c.buffer.length) := by
      obtain ⟨t, ht⟩ := hp
      have hcongr := congrArg (List.take (min data.length c.buffer.length)) ht
      rw [Channel.pending, List.take_append_of_le_length hk, List.take_append_of_le_length (Nat.min_le_right ..)] at hcongr
      rw [hcongr, ← List.take_take, List.take_length]
    have hdrop : c.buffer.drop data.length = c.buffer.drop (min data.length c.buffer.length) := by
      by_cases hle : data.length ≤ c.buffer.length
      · rw [Nat.min_eq_left hle]
      · rw [Nat.min_eq_right (by omega), List.drop_length, List.drop_eq_nil_of_le (by omega)]
    refine ⟨_, _, by omega, hk, took_buffer (Nat.min_le_right ..), ?_⟩
    rw [readIntoLoop_succ, if_neg hlen.ne', if_neg hbuffer]
    dsimp only
    rw [htake, hdrop, List.length_take_of_le hk, List.length_drop]

theorem reads_intoLoop (fuel : Nat) {data : List Char} (hfuel : data.length ≤ fuel) :
    Reads (readIntoLoop fuel data.length) data (.ok data) := by
  induction fuel generalizing data with
  | zero =>
    obtain rfl := List.length_eq_zero_iff.mp (Nat.le_zero.mp hfuel)
    exact .pure []
  | succ fuel ih =>
    by_cases hne : data = []
    · rw [hne]
      exact .congr (.pure []) fun c => (readIntoLoop_succ fuel 0 c).trans (if_pos rfl)
    · have hrest : ∀ k, 0 < k → Reads (readIntoLoop fuel (data.drop k).length >>= fun rest => pure (data.take k ++ rest))
          (data.drop k) (.ok data) := fun k hk => by
        have hlen : (data.drop k).length ≤ fuel := by
          rw [List.length_drop]
          omega
        have hread : Reads (readIntoLoop fuel (data.drop k).length >>= fun rest => pure (data.take k ++ rest))
            (data.drop k ++ []) (.ok (data.take k ++ data.drop k)) := (ih hlen).bind (.pure _)
        rwa [List.append_nil, List.take_append_drop] at hread
      refine .step (fun c hp hb => ?_) (fun c hp hb => ?_) hne
      · obtain ⟨k, c', hpos, hk, htook, hstep⟩ := readIntoLoop_step fuel hne hp hb
        exact ⟨k, _, c', hk, htook, hstep, hrest k hpos⟩
      · obtain ⟨hbuffer, harrives⟩ := Nat.add_eq_zero_iff.mp hb
        refine ⟨readFailed, ?_⟩
        rw [readIntoLoop_succ, if_neg (List.length_pos_iff.mpr hne).ne', if_pos (List.length_eq_zero_iff.mp hbuffer),
          receive_none harrives]

theorem reads_into (data : List Char) : Reads (readInto data.length) data (.ok data) :=
  reads_intoLoop data.length (Nat.le_refl _)

theorem not_mem_decimalInt (n : Int) : '\r' ∉ decimalInt n := by
  have hdecimal : '\r' ∉ decimal n.natAbs := fun hm =>
    absurd (List.all_eq_true.mp (decimal_digits n.natAbs) _ hm) Bool.false_ne_true
  unfold decimalInt
  split
  · rw [List.mem_cons, not_or]
    exact ⟨by decide, hdecimal⟩
  · exact hdecimal

theorem reads_integer {n : Int} (hlo : -(int64Bound : Int) ≤ n) (hhi : n < int64Bound) :
    Reads readInteger (decimalInt n ++ crlf) (.ok n) := by
  obtain ⟨consumed, hparse⟩ := parseInteger_decimalInt hlo hhi
  have hstoll : stoll (decimalInt n) = some (n, consumed) := hparse
  rw [← List.append_nil (_ ++ _)]
  refine (reads_line (not_mem_decimalInt n)).bind ?_
  rw [hstoll]
  exact .pure n

theorem reads_count {n : Int} (hlo : -1 ≤ n) (hhi : n < int32Bound) :
    Reads readCount (decimalInt n ++ crlf) (.ok n) := by
  have hbound : -(int32Bound : Int) ≤ -1 := by decide
  obtain ⟨consumed, hparse⟩ := parseInteger_decimalInt (Int.le_trans hbound hlo) hhi
  have hstoi : stoi (decimalInt n) = some (n, consumed) := hparse
  rw [← List.append_nil (_ ++ _)]
  refine (reads_line (not_mem_decimalInt n)).bind ?_
  rw [hstoi]
  exact .pure n

/-! ## Replies as the client reads them -/

def Reply.type : Reply → Char
  | .simple _ => '+'
  | .error _ => '-'
  | .integer _ => ':'
  | .bulk _ => '$'
  | .array _ => '*'

/-- What an element of an array is returned as. -/
def Reply.element : Reply → Except (List Char) (Option (List Char))
  | .simple text => .ok (some text)
  | .error text => .error (redisError text)
  | .integer n => .ok (some (decimalInt n))
  | .bulk data => .ok data
  | .array _ => .error "redis: unexpected type in array".toList

/-- How much of it is read. -/
def Reply.elementTaken : Reply → List Char
  | .array _ => ['*']
  | r => r.encode

/-- How much of an array's elements is read: an error ends it. -/
def elementsTaken : List Reply → List Char
  | [] => []
  | r :: rs =>
    match r.element with
    | .ok _ => r.elementTaken ++ elementsTaken rs
    | .error _ => r.elementTaken

/-- The body read by the function for the reply's type, of an array only part. -/
def Reply.bodyTaken : Reply → List Char
  | .array (some elements) => decimalInt elements.length ++ crlf ++ elementsTaken elements
  | r => r.encode.tail

theorem Reply.encode_eq (r : Reply) : r.encode = r.type :: r.encode.tail := by
  rcases r with text | text | n | ⟨_ | data⟩ | ⟨_ | elements⟩ <;> rfl

theorem reads_bulkString {data : Option (List Char)} (h : (Reply.bulk data).WellFormed) :
    Reads readBulkString (Reply.bulk data).bodyTaken (.ok data) := by
  cases h with
  | null =>
    show Reads readBulkString (decimalInt (-1) ++ crlf) _
    rw [← List.append_nil (_ ++ _)]
    exact (reads_count (Int.le_refl _) (by decide)).bind (.pure none)
  | @bulk data hdata =>
    show Reads readBulkString (decimalInt data.length ++ crlf ++ (data ++ crlf)) _
    refine (reads_count (by omega) (by omega)).bind ?_
    rw [if_neg (by omega), Int.toNat_natCast]
    exact (reads_into data).bind ((reads_byte '\r').bind ((reads_byte '\n').bind (.pure (some data))))

theorem reads_error {α : Type} {text : List Char} (h : '\r' ∉ text) :
    Reads (errorReply α) (text ++ crlf) (.error (redisError text)) := by
  rw [← List.append_nil (_ ++ _)]
  exact (reads_line h).bind (.throw _)

theorem reads_element {r : Reply} (h : r.WellFormed) : Reads readElement r.elementTaken r.element := by
  have hbulk : ∀ data, (Reply.bulk data).WellFormed →
      Reads readElement (Reply.bulk data).elementTaken (.ok data) := by
    intro data hdata
    rw [show (Reply.bulk data).elementTaken = '$' :: (Reply.bulk data).bodyTaken from (Reply.bulk data).encode_eq]
    exact (reads_byte '$').bind (reads_bulkString hdata)
  cases h with
  | simple htext => exact (reads_byte '+').bind ((reads_line htext).map some)
  | error htext => exact (reads_byte '-').bind (reads_error htext)
  | integer hlo hhi => exact (reads_byte ':').bind ((reads_integer hlo hhi).map _)
  | null => exact hbulk none .null
  | bulk hdata => exact hbulk _ (.bulk hdata)
  | nullArray => exact (reads_byte '*').bind (.throw _)
  | array _ _ => exact (reads_byte '*').bind (.throw _)

theorem reads_elements {rs : List Reply} (h : ∀ r ∈ rs, r.WellFormed) :
    Reads (readElements rs.length) (elementsTaken rs) (rs.mapM Reply.element) := by
  induction rs with
  | nil => exact .pure []
  | cons r rs ih =>
    have hr := reads_element (h r List.mem_cons_self)
    have ih := ih fun s hs => h s (List.mem_cons_of_mem _ hs)
    rw [elementsTaken, List.mapM_cons]
    rcases helement : r.element with e | value
    · rw [helement] at hr
      exact hr.bind_error
    · rw [helement] at hr
      exact hr.bind (ih.map (value :: ·))

/-- What an array is returned as. -/
def arrayOutcome : Option (List Reply) → Except (List Char) (List (Option (List Char)))
  | none => .ok []
  | some elements => elements.mapM Reply.element

theorem reads_array {elements : Option (List Reply)} (h : (Reply.array elements).WellFormed) :
    Reads readArray (Reply.array elements).bodyTaken (arrayOutcome elements) := by
  cases h with
  | nullArray =>
    show Reads readArray (decimalInt (-1) ++ crlf) _
    rw [← List.append_nil (_ ++ _)]
    exact (reads_count (Int.le_refl _) (by decide)).bind (.pure [])
  | @array elements hcount helements =>
    refine (reads_count (by omega) (by omega)).bind ?_
    rw [if_neg (by omega), Int.toNat_natCast]
    exact reads_elements helements

/-! ## When a reply is read to its end -/

/-- No array among the elements, and no error but the last. -/
def ElementsWhole : List Reply → Prop
  | [] => True
  | .array _ :: _ => False
  | .error _ :: rs => rs = []
  | _ :: rs => ElementsWhole rs

/-- Not an array, or one whose elements the client reads to their end. -/
def Reply.Whole : Reply → Prop
  | .array (some elements) => ElementsWhole elements
  | _ => True

theorem Reply.elementTaken_le (r : Reply) : r.elementTaken <+: r.encode := by
  cases r with
  | array elements =>
    rw [Reply.encode_eq]
    exact List.prefix_append ['*'] _
  | _ => exact List.prefix_refl _

theorem elementsTaken_le (rs : List Reply) : elementsTaken rs <+: encodeElements rs := by
  induction rs with
  | nil => exact List.prefix_refl []
  | cons r rs ih =>
    rw [elementsTaken, encodeElements]
    cases r with
    | error text => exact List.prefix_append ..
    | array elements => exact (Reply.elementTaken_le _).trans (List.prefix_append ..)
    | _ => exact (List.prefix_append_right_inj _).mpr ih

theorem encodeElements_eq_nil {rs : List Reply} : encodeElements rs = [] ↔ rs = [] := by
  cases rs with
  | nil => exact iff_of_true rfl rfl
  | cons r rs =>
    rw [encodeElements, Reply.encode_eq]
    exact iff_of_false (List.cons_ne_nil _ _) (List.cons_ne_nil _ _)

/-- The elements are read to their end exactly when they are whole. -/
theorem elementsTaken_eq_iff {rs : List Reply} : elementsTaken rs = encodeElements rs ↔ ElementsWhole rs := by
  induction rs with
  | nil => exact iff_of_true rfl trivial
  | cons r rs ih =>
    rw [elementsTaken, encodeElements]
    cases r with
    | error text =>
      show (Reply.error text).encode = _ ↔ rs = []
      rw [List.self_eq_append_right, encodeElements_eq_nil]
    | array elements =>
      refine iff_of_false (fun heq => ?_) id
      have hlen := congrArg List.length heq
      rcases elements with _ | elements <;>
        simp [Reply.element, Reply.elementTaken, Reply.encode, crlf] at hlen
    | _ => exact List.append_right_inj _ |>.trans ih

theorem Reply.bodyTaken_le (r : Reply) : r.type :: r.bodyTaken <+: r.encode := by
  rcases r with text | text | n | data | ⟨_ | elements⟩
  case array.some =>
    show '*' :: (_ ++ elementsTaken elements) <+: '*' :: (_ ++ encodeElements elements)
    rw [List.cons_prefix_cons]
    exact ⟨rfl, (List.prefix_append_right_inj _).mpr (elementsTaken_le elements)⟩
  all_goals exact (Reply.encode_eq _) ▸ List.prefix_refl _

theorem Reply.bodyTaken_eq_iff {r : Reply} : r.type :: r.bodyTaken = r.encode ↔ r.Whole := by
  rcases r with text | text | n | data | ⟨_ | elements⟩
  case array.some =>
    show '*' :: (_ ++ elementsTaken elements) = '*' :: (_ ++ encodeElements elements) ↔ _
    rw [List.cons_inj_right, List.append_right_inj]
    exact elementsTaken_eq_iff
  all_goals exact iff_of_true (Reply.encode_eq _).symm trivial

end Pineapple.Redis
