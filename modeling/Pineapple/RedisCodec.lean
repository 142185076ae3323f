import Pineapple.RedisClient

/-! # Commands and replies on the wire (`redis_client.cpp`)

What `encode_command` writes, and how a server reads it back; the replies that a server sends one after another,
and what the readers of the client return for them. -/

namespace Pineapple.Redis
open Session

/-! ## Commands -/

def encodeBulk (s : List Char) : List Char := '$' :: (decimal s.length ++ crlf ++ (s ++ crlf))

def encodeCommand (args : List (List Char)) : List Char :=
  '*' :: (decimal args.length ++ crlf ++ args.flatMap encodeBulk)

/-- A number and its line end, as a server reads them. -/
def decodeNumber (bytes : List Char) : Option (Nat × List Char) :=
  let digits := bytes.takeWhile Char.isDigit
  match bytes.dropWhile Char.isDigit with
  | '\r' :: '\n' :: rest => if digits = [] then none else some (digitsValue digits, rest)
  | _ => none

/-- A bulk string: as many bytes as its number says, whatever they are. -/
def decodeBulk : List Char → Option (List Char × List Char)
  | '$' :: bytes => do
    let (length, body) ← decodeNumber bytes
    match body.drop length with
    | '\r' :: '\n' :: rest => return (body.take length, rest)
    | _ => none
  | _ => none

def decodeBulks : Nat → List Char → Option (List (List Char) × List Char)
  | 0, bytes => some ([], bytes)
  | n + 1, bytes => do
    let (arg, bytes) ← decodeBulk bytes
    let (args, bytes) ← decodeBulks n bytes
    return (arg :: args, bytes)

/-- An array of bulk strings, and what follows it. -/
def decodeCommand : List Char → Option (List (List Char) × List Char)
  | '*' :: bytes => do
    let (count, bytes) ← decodeNumber bytes
    decodeBulks count bytes
  | _ => none

theorem decodeNumber_decimal (n : Nat) (rest : List Char) :
    decodeNumber (decimal n ++ crlf ++ rest) = some (n, rest) := by
  have hends : EndsDigits (crlf ++ rest) := by
    rintro c hc
    obtain rfl := Option.some.inj hc
    rfl
  have htake := takeWhile_digits (decimal_digits n) hends
  have hdrop := dropWhile_digits (decimal_digits n) hends
  unfold decodeNumber
  rw [List.append_assoc, htake, hdrop]
  show (if decimal n = [] then none else some (digitsValue (decimal n), rest)) = _
  rw [if_neg (decimal_ne_nil n), digitsValue_decimal]

theorem decodeBulk_encodeBulk (s rest : List Char) : decodeBulk (encodeBulk s ++ rest) = some (s, rest) := by
  show decodeBulk ('$' :: (decimal s.length ++ crlf ++ (s ++ crlf) ++ rest)) = _
  rw [List.append_assoc, List.append_assoc s]
  simp only [decodeBulk, decodeNumber_decimal, Option.bind_eq_bind, Option.bind_some, List.drop_left, List.take_left]
  rfl

theorem decodeBulks_encodeBulk (args : List (List Char)) (rest : List Char) :
    decodeBulks args.length (args.flatMap encodeBulk ++ rest) = some (args, rest) := by
  induction args with
  | nil => rfl
  | cons arg args ih =>
    rw [List.flatMap_cons, List.append_assoc, List.length_cons]
    simp only [decodeBulks, decodeBulk_encodeBulk, Option.bind_eq_bind, Option.bind_some, ih]
    rfl

/-- Whatever bytes the arguments have, a server reads just them. -/
theorem decodeCommand_encodeCommand (args : List (List Char)) (rest : List Char) :
    decodeCommand (encodeCommand args ++ rest) = some (args, rest) := by
  show decodeCommand ('*' :: (decimal args.length ++ crlf ++ args.flatMap encodeBulk ++ rest)) = _
  rw [List.append_assoc]
  simp only [decodeCommand, decodeNumber_decimal, Option.bind_eq_bind, Option.bind_some]
  exact decodeBulks_encodeBulk args rest

theorem decimalInt_natCast (n : Nat) : decimalInt n = decimal n := by
  unfold decimalInt
  rw [if_neg (by omega), Int.natAbs_natCast]

/-- A command is an array of bulk strings. -/
theorem encodeCommand_eq (args : List (List Char)) :
    encodeCommand args = (Reply.array (some (args.map fun arg => .bulk (some arg)))).encode := by
  have helements : args.flatMap encodeBulk = encodeElements (args.map fun arg => .bulk (some arg)) := by
    induction args with
    | nil => rfl
    | cons arg args ih =>
      rw [List.flatMap_cons, List.map_cons, encodeElements, ih]
      show '$' :: (decimal arg.length ++ crlf ++ (arg ++ crlf)) ++ _ = '$' :: (_ ++ crlf ++ (arg ++ crlf)) ++ _
      rw [decimalInt_natCast]
  show '*' :: (decimal args.length ++ crlf ++ args.flatMap encodeBulk) = '*' :: (_ ++ crlf ++ _)
  rw [decimalInt_natCast, List.length_map, helements]

/-! ## Replies -/

/-- What the readers return; a null array has no elements. -/
inductive Value
  | text (line : List Char)
  | error (line : List Char)
  | integer (n : Int)
  | bulk (data : Option (List Char))
  | array (elements : List (Option (List Char)))

/-- What an array may have as an element. -/
def Reply.IsElement : Reply → Prop
  | .simple _ | .integer _ | .bulk _ => True
  | .error _ | .array _ => False

/-- No array in an array, and no error. -/
def Reply.Flat : Reply → Prop
  | .array (some elements) => ∀ r ∈ elements, r.IsElement
  | _ => True

def Reply.elementValue : Reply → Option (List Char)
  | .simple text => some text
  | .integer n => some (decimalInt n)
  | .bulk data => data
  | .error _ | .array _ => none

def Reply.value : Reply → Value
  | .simple text => .text text
  | .error text => .error text
  | .integer n => .integer n
  | .bulk data => .bulk data
  | .array none => .array []
  | .array (some elements) => .array (elements.map elementValue)

/-- The readers of the client, each with the type it is for. -/
def valueReaders : List (Char × Client Value) :=
  [('+', .text <$> readSimpleString), ('-', .error <$> readError), (':', .integer <$> readInteger),
    ('$', .bulk <$> readBulkString), ('*', .array <$> readArray)]

def readValue : Client Value := readReply valueReaders "redis: unexpected response type"

def readValues : Nat → Client (List Value)
  | 0 => pure []
  | n + 1 => do
    let value ← readValue
    let rest ← readValues n
    return value :: rest

theorem Reply.IsElement.element_eq {r : Reply} (h : r.IsElement) : r.element = .ok r.elementValue := by
  cases r with
  | error text => exact h.elim
  | array elements => exact h.elim
  | _ => rfl

theorem Reply.IsElement.elementTaken_eq {r : Reply} (h : r.IsElement) : r.elementTaken = r.encode := by
  cases r with
  | array elements => exact h.elim
  | _ => rfl

theorem mapM_element {rs : List Reply} (h : ∀ r ∈ rs, r.IsElement) :
    rs.mapM Reply.element = .ok (rs.map Reply.elementValue) := by
  induction rs with
  | nil => rfl
  | cons r rs ih =>
    rw [List.mapM_cons, (h r List.mem_cons_self).element_eq, ih fun s hs => h s (List.mem_cons_of_mem _ hs)]
    rfl

theorem elementsTaken_eq {rs : List Reply} (h : ∀ r ∈ rs, r.IsElement) : elementsTaken rs = encodeElements rs := by
  induction rs with
  | nil => rfl
  | cons r rs ih =>
    have hr := h r List.mem_cons_self
    rw [elementsTaken, encodeElements, hr.element_eq, hr.elementTaken_eq,
      ih fun s hs => h s (List.mem_cons_of_mem _ hs)]

theorem Reply.Flat.bodyTaken_eq {r : Reply} (h : r.Flat) : r.type :: r.bodyTaken = r.encode := by
  rcases r with text | text | n | data | ⟨_ | elements⟩
  case array.some =>
    show '*' :: (_ ++ crlf ++ elementsTaken elements) = '*' :: (_ ++ crlf ++ encodeElements elements)
    rw [elementsTaken_eq h]
  all_goals exact (Reply.encode_eq _).symm

theorem Reply.Flat.arrayOutcome_eq {elements : Option (List Reply)} (h : (Reply.array elements).Flat) :
    Value.array <$> arrayOutcome elements = .ok (Reply.array elements).value := by
  rcases elements with _ | elements
  · rfl
  · show Value.array <$> elements.mapM Reply.element = _
    rw [mapM_element h]
    rfl

/-- A reply is read by the reader of its type, to its end. -/
theorem reads_value {r : Reply} (hwf : r.WellFormed) (hflat : r.Flat) : Reads readValue r.encode (.ok r.value) := by
  rw [← hflat.bodyTaken_eq]
  rcases r with text | text | n | data | elements
  · rcases hwf with ⟨htext⟩
    exact reads_handled _ rfl ((reads_line htext).map Value.text)
  · rcases hwf with _ | ⟨htext⟩
    exact reads_handled _ rfl ((reads_line htext).map Value.error)
  · rcases hwf with _ | _ | ⟨hlo, hhi⟩
    exact reads_handled _ rfl ((reads_integer hlo hhi).map Value.integer)
  · exact reads_handled _ rfl ((reads_bulkString hwf).map Value.bulk)
  · rw [← hflat.arrayOutcome_eq]
    exact reads_handled _ rfl ((reads_array hwf).map Value.array)

/-- Replies one after another: each reader leaves the next one's bytes. -/
theorem reads_values {rs : List Reply} (hwf : ∀ r ∈ rs, r.WellFormed) (hflat : ∀ r ∈ rs, r.Flat) :
    Reads (readValues rs.length) (encodeElements rs) (.ok (rs.map Reply.value)) := by
  induction rs with
  | nil => exact .pure []
  | cons r rs ih =>
    have hr := reads_value (hwf r List.mem_cons_self) (hflat r List.mem_cons_self)
    have ih := ih (fun s hs => hwf s (List.mem_cons_of_mem _ hs)) fun s hs => hflat s (List.mem_cons_of_mem _ hs)
    rw [encodeElements]
    exact hr.bind (ih.map (r.value :: ·))

/-- Commands are read back by the server, and replies by the client, however the network cuts their bytes. -/
theorem commands_and_replies_read :
    (∀ (args : List (List Char)) (rest : List Char),
      encodeCommand args = (Reply.array (some (args.map fun arg => .bulk (some arg)))).encode ∧
        decodeCommand (encodeCommand args ++ rest) = some (args, rest)) ∧
    ∀ (rs : List Reply) (rest : List Char) (c : Channel), (∀ r ∈ rs, r.WellFormed ∧ r.Flat) →
      c.pending = encodeElements rs ++ rest → (encodeElements rs).length ≤ c.budget →
        ∃ c', readValues rs.length c = (.ok (rs.map Reply.value), c') ∧ c'.pending = rest := by
  refine ⟨fun args rest => ⟨encodeCommand_eq args, decodeCommand_encodeCommand args rest⟩, ?_⟩
  intro rs rest c hrs hp hb
  have hread := reads_values (fun r hr => (hrs r hr).1) fun r hr => (hrs r hr).2
  obtain ⟨c', hc', htook⟩ := hread.full c (hp ▸ List.prefix_append _ rest) hb
  refine ⟨c', hc', ?_⟩
  rw [htook.pending, hp, List.drop_left]

theorem decimalInt_digit {n : Nat} (hn : n < 10) : decimalInt n = [digitChar n] := by
  rw [decimalInt_natCast, decimal, if_pos hn]

/-- A bulk string with line ends in it and an array, in pieces, before the next reply. -/
theorem commands_and_replies_read_split :
    ∃ c', readValues 2 { unread := "$4\r\na\r\nb\r\n*2\r\n+x\r\n:7\r\n+OK".toList, arrives := 25, cuts := [0, 4, 0, 2] } =
        (.ok [.bulk (some "a\r\nb".toList), .array [some ['x'], some (decimalInt 7)]], c') ∧
      c'.pending = "+OK".toList := by
  have hencode : encodeElements [.bulk (some "a\r\nb".toList), .array (some [.simple ['x'], .integer 7])] =
      "$4\r\na\r\nb\r\n*2\r\n+x\r\n:7\r\n".toList := by
    have h4 : decimalInt ("a\r\nb".toList.length : Nat) = ['4'] := decimalInt_digit (by decide)
    have h2 : decimalInt ([Reply.simple ['x'], .integer 7].length : Nat) = ['2'] := decimalInt_digit (by decide)
    have h7 : decimalInt (7 : Nat) = ['7'] := decimalInt_digit (by decide)
    have h7 : decimalInt (7 : Int) = ['7'] := h7
    simp only [encodeElements, Reply.encode, h4, h2, h7]
    rfl
  have helements : ∀ r ∈ [Reply.simple ['x'], .integer 7], r.WellFormed := List.forall_mem_cons.mpr
    ⟨.simple (by decide), List.forall_mem_singleton.mpr (.integer (by decide) (by decide))⟩
  have hrs : ∀ r ∈ [Reply.bulk (some "a\r\nb".toList), .array (some [.simple ['x'], .integer 7])],
      r.WellFormed ∧ r.Flat := List.forall_mem_cons.mpr ⟨⟨.bulk (by decide), trivial⟩, List.forall_mem_singleton.mpr
    ⟨.array (by decide) helements, List.forall_mem_cons.mpr ⟨trivial, List.forall_mem_singleton.mpr trivial⟩⟩⟩
  have hlen : (encodeElements [.bulk (some "a\r\nb".toList), .array (some [.simple ['x'], .integer 7])]).length ≤ 25 := by
    rw [hencode]
    decide
  refine commands_and_replies_read.2 [.bulk (some "a\r\nb".toList), .array (some [.simple ['x'], .integer 7])]
    "+OK".toList _ hrs ?_ hlen
  rw [hencode]
  rfl

/-! ## Lengths that are no `int` -/

/-- A bulk string of 2 GiB is refused at its length. -/
theorem reads_bulkString_long {data : List Char} (h : int32Bound ≤ data.length) :
    Reads readBulkString (decimalInt data.length ++ crlf) (.error "stoi".toList) := by
  have hparse := @parseInteger_digits int32Bound [] (decimal data.length) [] nofun nofun
    (decimal_ne_nil _) (decimal_digits _)
  rw [List.nil_append, List.append_nil, digitsValue_decimal, if_neg (by omega), ← decimalInt_natCast] at hparse
  have hstoi : stoi (decimalInt data.length) = none := hparse
  have hcount : Reads readCount (decimalInt data.length ++ crlf ++ []) (.error "stoi".toList) := by
    refine (reads_line (not_mem_decimalInt _)).bind ?_
    rw [hstoi]
    exact .throw _
  rw [List.append_nil] at hcount
  exact hcount.bind_error

theorem exists_length (n : Nat) : ∃ data : List Char, data.length = n :=
  ⟨List.replicate n 'x', List.length_replicate⟩

theorem long_bulk_not_read : ¬ ∀ (data rest : List Char) (c : Channel),
    c.pending = (Reply.bulk (some data)).encode ++ rest → (Reply.bulk (some data)).encode.length ≤ c.budget →
      ∃ c', readValue c = (.ok (.bulk (some data)), c') ∧ c'.pending = rest := by
  obtain ⟨data, hdata⟩ := exists_length int32Bound
  intro h
  have hread : Reads readValue ('$' :: (decimalInt data.length ++ crlf)) (.error "stoi".toList) := by
    refine (reads_byte '$').bind ?_
    exact (reads_bulkString_long hdata.ge).map Value.bulk
  have hencode : (Reply.bulk (some data)).encode = '$' :: (decimalInt data.length ++ crlf) ++ (data ++ crlf) := rfl
  obtain ⟨c', hc', -⟩ := h data [] { buffer := (Reply.bulk (some data)).encode } rfl (Nat.le_add_right ..)
  obtain ⟨c'', hc'', -⟩ := hread.full { buffer := (Reply.bulk (some data)).encode }
    (by rw [hencode]; exact (List.prefix_append _ _).trans (List.prefix_append _ _)) (by
      rw [hencode]
      exact (List.prefix_append _ _).length_le.trans (Nat.le_add_right ..))
  rw [hc''] at hc'
  exact absurd (Prod.mk.inj hc').1 nofun

end Pineapple.Redis
