import Pineapple.RedisReply

/-! # The Redis client's commands (`redis_client.cpp`)

A command writes its request and reads its reply. Most of them choose a function by the reply's type; a
transaction is a sequence of requests. The request's bytes are left out: no reply is read by them. -/

namespace Pineapple.Redis
open Session

def writeFailed : List Char := "redis write failed".toList

def sendCommand : Client Unit := request writeFailed

/-- A reply read by the function for its type. -/
def readReply {α : Type} (readers : List (Char × Client α)) (unexpected : String) : Client α := do
  let type ← readType
  match readers.lookup type with
  | some read => read
  | none => throw unexpected.toList

inductive Method
  | ping
  | get
  | set
  | smembers
  | sadd
  | lrange
  | rpush
  | del
  | expire

def Method.Result : Method → Type
  | .ping => Bool
  | .get => Option (List Char)
  | .smembers | .lrange => List (List Char)
  | .set | .sadd | .rpush | .del | .expire => Unit

/-- `smembers` and `lrange` leave out the elements that are null. -/
def listReaders : List (Char × Client (List (List Char))) :=
  [('*', (·.reduceOption) <$> readArray), ('-', errorReply _)]

def countReaders : List (Char × Client Unit) := [(':', (fun _ => ()) <$> readInteger), ('-', errorReply _)]

/-- `expect_ok`. -/
def okReaders : List (Char × Client Unit) :=
  [('+', (fun _ => ()) <$> readLine), ('-', errorReply _), ('$', (fun _ => ()) <$> readBulkString),
    (':', (fun _ => ()) <$> readInteger)]

def expectOk : Client Unit := readReply okReaders "redis: unexpected response type"

def pong : List Char := "PONG".toList

def Method.readers : (m : Method) → List (Char × Client m.Result)
  | .ping => [('+', (fun s => s == pong) <$> readSimpleString), ('$', (fun b => b == some pong) <$> readBulkString),
      ('-', errorReply _)]
  | .get => [('$', readBulkString), ('-', errorReply _), ('+', some <$> readSimpleString)]
  | .set => okReaders
  | .smembers | .lrange => listReaders
  | .sadd | .rpush | .del | .expire => countReaders

def Method.unexpected : Method → String
  | .ping => "redis: unexpected response type for PING"
  | .get => "redis: unexpected response type for GET"
  | .set => "redis: unexpected response type"
  | .smembers => "redis: unexpected response type for SMEMBERS"
  | .sadd => "redis: unexpected response type for SADD"
  | .lrange => "redis: unexpected response type for LRANGE"
  | .rpush => "redis: unexpected response type for RPUSH"
  | .del => "redis: unexpected response type for DEL"
  | .expire => "redis: unexpected response type for EXPIRE"

def Method.run (m : Method) : Client m.Result := do
  sendCommand
  readReply m.readers m.unexpected

/-- A command of a transaction was refused: `DISCARD`, whatever becomes of it. -/
def queueRefused : Client Unit := do
  let text ← readError
  MonadExcept.tryCatch (do sendCommand; (fun _ => ()) <$> readLine) fun _ => pure ()
  throw (redisError text)

def statusReaders (refused : Client Unit) : List (Char × Client Unit) :=
  [('-', refused), ('+', (fun _ => ()) <$> readLine)]

def queueCommands : Nat → Client Unit
  | 0 => pure ()
  | n + 1 => do
    sendCommand
    readReply (statusReaders queueRefused) "redis: unexpected queued response"
    queueCommands n

def execReaders : List (Char × Client Unit) := [('*', (fun _ => ()) <$> readArray), ('-', errorReply _)]

/-- `write_multiexec` of `n` commands. -/
def writeMultiexec (n : Nat) : Client Unit := do
  sendCommand
  readReply (statusReaders (errorReply _)) "redis: unexpected MULTI response"
  queueCommands n
  sendCommand
  readReply execReaders "redis: unexpected response type for EXEC"

def handshake (wanted : Bool) : Client Unit :=
  if wanted then do
    sendCommand
    expectOk
  else pure ()

/-- `AUTH` and `SELECT` in the constructor, where there is a password and where a database is to be selected. -/
def connect (auth select : Bool) : Client Unit := do
  handshake auth
  handshake select

inductive Command
  | method (m : Method)
  | multiexec (n : Nat)

def Command.Result : Command → Type
  | .method m => m.Result
  | .multiexec _ => Unit

def Command.run : (cmd : Command) → Client cmd.Result
  | .method m => m.run
  | .multiexec n => writeMultiexec n

/-! ## What they consume -/

variable {α β : Type}

/-- The function reads the bodies of the replies of a type, of arrays only part. -/
def ReadsType (type : Char) (read : Client α) : Prop :=
  ∀ r : Reply, r.WellFormed → r.type = type → ∃ out, Reads read r.bodyTaken out

theorem readsType_line : ReadsType '+' readLine := by
  rintro _ (⟨htext⟩ | _ | _ | _ | _ | _ | _) htype
  · exact ⟨_, reads_line htext⟩
  all_goals simp [Reply.type] at htype

theorem readsType_error : ReadsType '-' (errorReply α) := by
  rintro _ (_ | ⟨htext⟩ | _ | _ | _ | _ | _) htype
  · simp [Reply.type] at htype
  · exact ⟨_, reads_error htext⟩
  all_goals simp [Reply.type] at htype

theorem readsType_integer : ReadsType ':' readInteger := by
  rintro _ (_ | _ | ⟨hlo, hhi⟩ | _ | _ | _ | _) htype
  · simp [Reply.type] at htype
  · simp [Reply.type] at htype
  · exact ⟨_, reads_integer hlo hhi⟩
  all_goals simp [Reply.type] at htype

theorem readsType_bulk : ReadsType '$' readBulkString := by
  rintro (_ | _ | _ | data | _) hwf htype
  case bulk => exact ⟨_, reads_bulkString hwf⟩
  all_goals simp [Reply.type] at htype

theorem readsType_array : ReadsType '*' readArray := by
  rintro (_ | _ | _ | _ | elements) hwf htype
  case array => exact ⟨_, reads_array hwf⟩
  all_goals simp [Reply.type] at htype

theorem ReadsType.map {type : Char} {read : Client α} (h : ReadsType type read) (g : α → β) :
    ReadsType type (g <$> read) := by
  intro r hwf htype
  obtain ⟨out, hread⟩ := h r hwf htype
  exact ⟨_, hread.map g⟩

/-- Each function of a table reads the replies of its type. -/
def ReadsTypes (readers : List (Char × Client α)) : Prop := ∀ p ∈ readers, ReadsType p.1 p.2

theorem readsTypes_ok : ReadsTypes okReaders :=
  List.forall_mem_cons.mpr ⟨readsType_line.map _, List.forall_mem_cons.mpr ⟨readsType_error,
    List.forall_mem_cons.mpr ⟨readsType_bulk.map _, List.forall_mem_singleton.mpr (readsType_integer.map _)⟩⟩⟩

theorem readsTypes_method (m : Method) : ReadsTypes m.readers := by
  have hlist : ReadsTypes listReaders := List.forall_mem_cons.mpr
    ⟨readsType_array.map _, List.forall_mem_singleton.mpr readsType_error⟩
  have hcount : ReadsTypes countReaders := List.forall_mem_cons.mpr
    ⟨readsType_integer.map _, List.forall_mem_singleton.mpr readsType_error⟩
  cases m with
  | ping => exact List.forall_mem_cons.mpr ⟨readsType_line.map _, List.forall_mem_cons.mpr
      ⟨readsType_bulk.map _, List.forall_mem_singleton.mpr readsType_error⟩⟩
  | get => exact List.forall_mem_cons.mpr ⟨readsType_bulk, List.forall_mem_cons.mpr
      ⟨readsType_error, List.forall_mem_singleton.mpr (readsType_line.map _)⟩⟩
  | set => exact readsTypes_ok
  | smembers | lrange => exact hlist
  | sadd | rpush | del | expire => exact hcount

/-- There is a function for the reply's type. -/
def Reply.Handled (readers : List (Char × Client α)) (r : Reply) : Prop := (readers.lookup r.type).isSome = true

/-- What is read of a reply: its type, and its body where there is a function for it. -/
def Reply.taken (readers : List (Char × Client α)) (r : Reply) : List Char :=
  if (readers.lookup r.type).isSome then r.type :: r.bodyTaken else [r.type]

theorem lookup_mem {readers : List (Char × Client α)} {type : Char} {read : Client α}
    (h : readers.lookup type = some read) : (type, read) ∈ readers := by
  induction readers with
  | nil => exact absurd h nofun
  | cons p readers ih =>
    obtain ⟨t, r⟩ := p
    rw [List.lookup_cons] at h
    split at h
    · next heq =>
      rw [eq_of_beq heq]
      exact List.mem_cons.mpr (.inl (by rw [Option.some.inj h]))
    · exact List.mem_cons_of_mem _ (ih h)

theorem reads_unhandled {readers : List (Char × Client α)} (unexpected : String) {r : Reply}
    (h : readers.lookup r.type = none) : Reads (readReply readers unexpected) [r.type] (.error unexpected.toList) := by
  refine (reads_byte r.type).bind ?_
  rw [h]
  exact .throw _

theorem reads_handled {readers : List (Char × Client α)} (unexpected : String) {r : Reply} {read : Client α}
    {out : Except (List Char) α} (h : readers.lookup r.type = some read) (hread : Reads read r.bodyTaken out) :
    Reads (readReply readers unexpected) (r.type :: r.bodyTaken) out := by
  refine (reads_byte r.type).bind ?_
  rw [h]
  exact hread

/-- A reply is read up to its type, or to where the function for the type stops. -/
theorem reads_reply {readers : List (Char × Client α)} (h : ReadsTypes readers) (unexpected : String) {r : Reply}
    (hwf : r.WellFormed) : ∃ out, Reads (readReply readers unexpected) (r.taken readers) out := by
  unfold Reply.taken
  cases hlookup : readers.lookup r.type with
  | none => exact ⟨_, reads_unhandled unexpected hlookup⟩
  | some read =>
    obtain ⟨out, hread⟩ := h _ (lookup_mem hlookup) r hwf rfl
    exact ⟨out, reads_handled unexpected hlookup hread⟩

theorem Reply.taken_le (readers : List (Char × Client α)) (r : Reply) : r.taken readers <+: r.encode := by
  unfold Reply.taken
  split
  · exact r.bodyTaken_le
  · rw [r.encode_eq]
    exact List.prefix_append [r.type] _

/-- A reply is read to its end exactly when there is a function for its type and it is whole. -/
theorem Reply.taken_eq_iff {readers : List (Char × Client α)} {r : Reply} :
    r.taken readers = r.encode ↔ r.Handled readers ∧ r.Whole := by
  unfold Reply.taken Reply.Handled
  split
  · next h => rw [r.bodyTaken_eq_iff, and_iff_right h]
  · next h =>
    refine iff_of_false (fun heq => ?_) fun hand => h hand.1
    have hlen := congrArg List.length heq
    rcases r with _ | _ | _ | ⟨_ | _⟩ | ⟨_ | _⟩ <;> simp [Reply.encode, crlf] at hlen

/-- A command leaves nothing of its reply behind exactly when the reply arrives, there is a function for its type
and no array in it and no error element before its last keep it from being read to the end. -/
theorem method_leaves_nothing_iff (m : Method) {r : Reply} (hwf : r.WellFormed) {c : Channel}
    {more : List (Option (List Char))} (hp : c.pending = []) (ha : c.answers = some r.encode :: more) :
    (m.run c).2.pending = [] ↔ (r.Handled m.readers ∧ r.Whole) ∧ r.encode.length ≤ c.budget := by
  obtain ⟨out, hread⟩ := reads_reply (readsTypes_method m) m.unexpected hwf
  rw [← r.taken_eq_iff]
  exact hread.leaves_nothing_iff (r.taken_le _) hp ha

theorem method_leaves_nothing_iff_ping :
    (Method.ping.run { answers := [some (Reply.simple pong).encode], arrives := 7 }).2.pending = [] :=
  (method_leaves_nothing_iff .ping (.simple (by decide)) rfl rfl).mpr ⟨⟨rfl, trivial⟩, by decide⟩

/-! ## Commands whose replies are read to their end -/

/-- The replies to a transaction's commands: `DISCARD` follows one that is refused. The flag tells that all were
queued. -/
inductive Queued : Nat → List Reply → Bool → Prop
  | done : Queued 0 [] true
  | queued {n rs all text} : Queued n rs all → Queued (n + 1) (.simple text :: rs) all
  | refused {n text r line} : '\r' ∉ line → r.encode = line ++ crlf → Queued (n + 1) [.error text, r] false

inductive Transaction : Nat → List Reply → Prop
  | refused {n text} : Transaction n [.error text]
  | aborted {n text rs} : Queued n rs false → Transaction n (.simple text :: rs)
  | executed {n text rs r} : Queued n rs true → r.Handled execReaders → r.Whole →
      Transaction n (.simple text :: (rs ++ [r]))

/-- Replies that the command reads to their end. -/
def Command.Answered : Command → List Reply → Prop
  | .method m, rs => ∃ r, rs = [r] ∧ r.Handled m.readers ∧ r.Whole
  | .multiexec n, rs => Transaction n rs

theorem reads_whole {readers : List (Char × Client α)} (h : ReadsTypes readers) (unexpected : String) {r : Reply}
    (hwf : r.WellFormed) (hhandled : r.Handled readers) (hwhole : r.Whole) :
    ∃ out, Reads (readReply readers unexpected) r.encode out := by
  obtain ⟨out, hread⟩ := reads_reply h unexpected hwf
  rw [Reply.taken_eq_iff.mpr ⟨hhandled, hwhole⟩] at hread
  exact ⟨out, hread⟩

theorem reads_status (refused : Client Unit) (unexpected : String) {text : List Char}
    (hwf : (Reply.simple text).WellFormed) :
    Reads (readReply (statusReaders refused) unexpected) (Reply.simple text).encode (.ok ()) := by
  cases hwf with
  | simple htext => exact (reads_byte '+').bind ((reads_line htext).map fun _ => ())

theorem exchange_queueRefused {text line : List Char} (htext : '\r' ∉ text) (hline : '\r' ∉ line) :
    Exchange queueRefused (text ++ crlf) [line ++ crlf] (.error (redisError text)) := by
  have hdiscard : Reads ((fun _ => ()) <$> readLine : Client Unit) (line ++ crlf) (.ok ()) :=
    (reads_line hline).map fun _ => ()
  rw [← List.append_nil (text ++ crlf)]
  exact .read_bind (reads_line htext) (.bind (.tryCatch_ok (.request_bind (.read hdiscard))) (.throw (redisError text)))

theorem exchange_queue {n : Nat} {rs : List Reply} {all : Bool} (h : Queued n rs all)
    (hwf : ∀ r ∈ rs, r.WellFormed) :
    ∃ out, Exchange (queueCommands n) [] (rs.map Reply.encode) out ∧ (all = true → out = .ok ()) ∧
      (all = false → ∃ e, out = .error e) := by
  induction h with
  | done => exact ⟨_, .pure (), fun _ => rfl, nofun⟩
  | @queued n rs all text _ ih =>
    obtain ⟨out, hex, hout⟩ := ih fun r hr => hwf r (List.mem_cons_of_mem _ hr)
    have hread := reads_status queueRefused "redis: unexpected queued response" (hwf _ List.mem_cons_self)
    refine ⟨out, .request_bind ?_, hout⟩
    rw [← List.append_nil (Reply.encode _)]
    exact .read_bind hread hex
  | @refused n text r line hline hr =>
    have htext := hwf _ List.mem_cons_self
    cases htext with
    | error htext =>
      refine ⟨.error (redisError text), .request_bind (.bind_error ?_), nofun, fun _ => ⟨_, rfl⟩⟩
      rw [List.map_singleton, hr]
      exact .read_bind (reads_byte '-') (exchange_queueRefused htext hline)

theorem exchange_exec {r : Reply} (hwf : r.WellFormed) (hhandled : r.Handled execReaders) (hwhole : r.Whole) :
    ∃ out, Exchange (do sendCommand; readReply execReaders "redis: unexpected response type for EXEC")
      [] [r.encode] out := by
  have hreads : ReadsTypes execReaders := List.forall_mem_cons.mpr
    ⟨readsType_array.map _, List.forall_mem_singleton.mpr readsType_error⟩
  obtain ⟨out, hread⟩ := reads_whole hreads "redis: unexpected response type for EXEC" hwf hhandled hwhole
  exact ⟨out, .request_bind (.read hread)⟩

theorem exchange_multiexec {n : Nat} {rs : List Reply} (h : Transaction n rs) (hwf : ∀ r ∈ rs, r.WellFormed) :
    ∃ out, Exchange (writeMultiexec n) [] (rs.map Reply.encode) out := by
  cases h with
  | @refused text =>
    cases hwf _ List.mem_cons_self with
    | error htext =>
      exact ⟨_, .request_bind (.bind_error (.read ((reads_byte '-').bind (reads_error htext))))⟩
  | @aborted text rs hqueued =>
    obtain ⟨out, hex, -, herror⟩ := exchange_queue hqueued fun r hr => hwf r (List.mem_cons_of_mem _ hr)
    obtain ⟨e, rfl⟩ := herror rfl
    have hread := reads_status (errorReply _) "redis: unexpected MULTI response" (hwf _ List.mem_cons_self)
    refine ⟨.error e, .request_bind ?_⟩
    rw [← List.append_nil (Reply.encode _)]
    exact .read_bind hread (.bind_error hex)
  | @executed text rs r hqueued hhandled hwhole =>
    have hrest : ∀ s ∈ rs ++ [r], s.WellFormed := fun s hs => hwf s (List.mem_cons_of_mem _ hs)
    obtain ⟨queueOut, hex, hok, -⟩ := exchange_queue hqueued fun s hs => hrest s (List.mem_append_left _ hs)
    obtain rfl := hok rfl
    obtain ⟨out, hexec⟩ := exchange_exec (hrest r (List.mem_append_right _ List.mem_cons_self)) hhandled hwhole
    have hread := reads_status (errorReply _) "redis: unexpected MULTI response" (hwf _ List.mem_cons_self)
    refine ⟨out, .request_bind ?_⟩
    rw [← List.append_nil (Reply.encode _), List.map_append]
    exact .read_bind hread (.bind hex hexec)

/-- The replies of an answered command are consumed to their end. -/
theorem exchange_command {cmd : Command} {rs : List Reply} (h : cmd.Answered rs) (hwf : ∀ r ∈ rs, r.WellFormed) :
    ∃ out, Exchange cmd.run [] (rs.map Reply.encode) out := by
  cases cmd with
  | method m =>
    obtain ⟨r, rfl, hhandled, hwhole⟩ := h
    obtain ⟨out, hread⟩ := reads_whole (readsTypes_method m) m.unexpected (hwf r List.mem_cons_self) hhandled hwhole
    exact ⟨out, .request_bind (.read hread)⟩
  | multiexec n => exact exchange_multiexec h hwf

/-! ## Connecting -/

/-- What is written is answered with replies. -/
def AnswersReplies (answers : List (Option (List Char))) : Prop :=
  ∀ answer ∈ answers, ∀ bytes ∈ answer, ∃ r : Reply, r.WellFormed ∧ bytes = r.encode

/-- A channel with nothing to come. -/
structure Clean (c : Channel) : Prop where
  pending : c.pending = []
  intact : c.intact = true

/-- A reply that `expect_ok` has a function for is no array. -/
theorem whole_of_expectOk {r : Reply} (h : r.Handled okReaders) : r.Whole := by
  rcases r with _ | _ | _ | _ | elements
  case array => exact absurd h Bool.false_ne_true
  all_goals exact trivial

theorem expectOk_ok {r : Reply} (hwf : r.WellFormed) {c c' : Channel} (hp : c.pending = r.encode)
    (h : expectOk c = (.ok (), c')) : c.Took c' r.encode.length := by
  have htype : [r.type] <+: c.pending := by
    rw [hp, r.encode_eq]
    exact List.prefix_append [r.type] _
  have hbody : r.type :: r.bodyTaken <+: c.pending := hp ▸ r.bodyTaken_le
  cases hlookup : okReaders.lookup r.type with
  | none =>
    have hout := (reads_unhandled "redis: unexpected response type" hlookup).of_ok htype h
    exact absurd hout.1 nofun
  | some read =>
    obtain ⟨out, hread⟩ := readsTypes_ok _ (lookup_mem hlookup) r hwf rfl
    have hwhole : r.Whole := whole_of_expectOk (by rw [Reply.Handled, hlookup]; rfl)
    have htook := ((reads_handled "redis: unexpected response type" hlookup hread).of_ok hbody h).2
    rwa [r.bodyTaken_eq_iff.mpr hwhole] at htook

/-- `AUTH` or `SELECT` succeeds only where its reply was read to its end. -/
theorem handshake_ok {wanted : Bool} {c c' : Channel} (hc : Clean c) (ha : AnswersReplies c.answers)
    (h : handshake wanted c = (.ok (), c')) : Clean c' ∧ AnswersReplies c'.answers := by
  unfold handshake at h
  split at h
  · by_cases hwritten : ∃ answer more, c.answers = some answer :: more
    · obtain ⟨answer, more, hanswers⟩ := hwritten
      obtain ⟨c₁, hsend, hp₁, -, ha₁, hi₁⟩ := @request_ok _ writeFailed c answer more hc.pending hanswers
      obtain ⟨r, hwf, rfl⟩ := ha (some answer) (hanswers ▸ List.mem_cons_self) answer rfl
      rw [bind_ok (show sendCommand c = _ from hsend)] at h
      have htook := expectOk_ok hwf hp₁ h
      refine ⟨⟨?_, htook.intact.trans (hi₁.trans hc.intact)⟩, ?_⟩
      · rw [htook.pending, hp₁, List.drop_length]
      · rw [htook.answers, ha₁]
        exact fun answer hanswer => ha answer (hanswers ▸ List.mem_cons_of_mem _ hanswer)
    · obtain ⟨c₁, hsend⟩ := @request_error _ writeFailed c fun answer more heq => hwritten ⟨answer, more, heq⟩
      rw [bind_error (show sendCommand c = _ from hsend)] at h
      exact absurd (Prod.mk.inj h).1 nofun
  · obtain ⟨-, rfl⟩ := Prod.mk.inj h
    exact ⟨hc, ha⟩

theorem connect_ok {auth select : Bool} {c c' : Channel} (hc : Clean c) (ha : AnswersReplies c.answers)
    (h : connect auth select c = (.ok (), c')) : Clean c' := by
  rcases hauth : handshake auth c with ⟨e | u, c₁⟩
  · rw [connect, bind_error hauth] at h
    exact absurd (Prod.mk.inj h).1 nofun
  · rw [connect, bind_ok hauth] at h
    obtain ⟨hc₁, ha₁⟩ := handshake_ok hc ha hauth
    exact (handshake_ok hc₁ ha₁ h).1

end Pineapple.Redis
