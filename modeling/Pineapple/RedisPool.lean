import Mathlib.Logic.Function.Basic
import Pineapple.RedisClient

/-! # The Redis connection pool and its borrowers (`connection_pool.cpp`, `connection_pool.hpp`)

Borrowers take connections, send commands and give the connections back, in any order. A command only touches the
connection its borrower holds, so it is one event. -/

namespace Pineapple.Redis
open Session

/-- `Client`: its channel, and whether `fd_` is open. -/
structure Conn where
  channel : Channel := {}
  connected : Bool

structure Key where
  host : List Char
  port : Int
  password : List Char
  db : Int
deriving DecidableEq

/-- Times are in nanoseconds. -/
structure IdleEntry where
  client : Conn
  queuedAt : Nat

def idleTimeout : Nat := 60000000000

def maxIdlePerKey : Nat := 16

/-- `ConnectionPool`; the idle connections of a key are newest first. -/
structure Pool where
  idle : Key → List IdleEntry := fun _ => []
  inUse : Nat := 0
  maxIdle : Nat := maxIdlePerKey

/-- What the server and the network do while a call lasts. -/
structure Network where
  answers : List (Option (List Char)) := []
  arrives : Nat := 0
  cuts : List Nat := []

def Network.on (net : Network) (c : Channel) : Channel :=
  { c with answers := net.answers, arrives := net.arrives, cuts := net.cuts }

/-- The client's constructor. -/
def Conn.dial (key : Key) (reachable : Bool) (net : Network) : Conn :=
  if reachable then
    match connect (key.password ≠ []) (key.db ≠ 0) (net.on {}) with
    | (.ok _, channel) => { channel, connected := true }
    | (.error _, channel) => { channel, connected := false }
  else { connected := false }

/-- The loop of `acquire`. -/
def popIdle (now : Nat) : List IdleEntry → Option Conn × List IdleEntry
  | [] => (none, [])
  | entry :: rest =>
    if now - entry.queuedAt ≤ idleTimeout ∧ entry.client.connected = true then (some entry.client, rest)
    else popIdle now rest

def Pool.acquire (pool : Pool) (key : Key) (now : Nat) (reachable : Bool) (net : Network) : Conn × Pool :=
  let (idle, rest) := popIdle now (pool.idle key)
  (idle.getD (Conn.dial key reachable net),
    { pool with idle := Function.update pool.idle key rest, inUse := pool.inUse + 1 })

def Pool.release (pool : Pool) (key : Key) (c : Conn) (now : Nat) : Pool :=
  let pool := { pool with inUse := pool.inUse - 1 }
  if c.connected = false then pool
  else if pool.maxIdle ≤ (pool.idle key).length then pool
  else { pool with idle := Function.update pool.idle key ({ client := c, queuedAt := now } :: pool.idle key) }

def connectionFailed : List Char := "connection failed".toList

/-- The call of `run_command` once it holds a connection. -/
def Conn.run (c : Conn) (cmd : Command) (net : Network) : Except (List Char) cmd.Result × Conn :=
  if c.connected then
    let (out, channel) := cmd.run (net.on c.channel)
    (out, { c with channel })
  else (.error connectionFailed, c)

structure Call where
  cmd : Command
  net : Network
  out : Except (List Char) cmd.Result

/-- The pool, the connections that borrowers hold, and the logs of the calls and of what `acquire` handed out. -/
structure System where
  pool : Pool
  now : Nat := 0
  held : Nat → Option (Key × Conn) := fun _ => none
  calls : List Call := []
  handedOut : List Conn := []

/-- `set_max_idle_per_key`. -/
def System.init (cap : Nat) : System := { pool := { maxIdle := if cap = 0 then maxIdlePerKey else cap } }

inductive Event
  | wait (elapsed : Nat)
  | acquire (borrower : Nat) (key : Key) (reachable : Bool) (net : Network)
  | command (borrower : Nat) (cmd : Command) (net : Network)
  | release (borrower : Nat)

def System.acquire (s : System) (borrower : Nat) (key : Key) (reachable : Bool) (net : Network) : System :=
  let (c, pool) := s.pool.acquire key s.now reachable net
  { s with pool, held := Function.update s.held borrower (some (key, c)), handedOut := c :: s.handedOut }

def System.command (s : System) (borrower : Nat) (key : Key) (c : Conn) (cmd : Command) (net : Network) : System :=
  let (out, c) := c.run cmd net
  { s with held := Function.update s.held borrower (some (key, c)), calls := { cmd, net, out } :: s.calls }

def System.release (s : System) (borrower : Nat) (key : Key) (c : Conn) : System :=
  { s with pool := s.pool.release key c s.now, held := Function.update s.held borrower none }

def System.step (s : System) : Event → Option System
  | .wait elapsed => some { s with now := s.now + elapsed }
  | .acquire borrower key reachable net =>
    if (s.held borrower).isNone then some (s.acquire borrower key reachable net) else none
  | .command borrower cmd net => (s.held borrower).map fun (key, c) => s.command borrower key c cmd net
  | .release borrower => (s.held borrower).map fun (key, c) => s.release borrower key c

def System.run : System → List Event → Option System
  | s, [] => some s
  | s, event :: events => (s.step event).bind fun s => run s events

/-! ## What callers are promised -/

/-- What the command gets from the answers to its own requests, on a connection of its own. -/
def Call.own (call : Call) : Except (List Char) call.cmd.Result :=
  (call.cmd.run { answers := call.net.answers, arrives := (call.net.answers.map (·.getD [])).flatten.length }).1

/-- The caller got a reply, a value or an error of the server's. -/
def Call.Returned (call : Call) : Prop := ∀ text, call.out = .error text → ∃ reply, text = redisError reply

def Call.Matches (call : Call) : Prop := call.Returned → call.out = call.own

/-- Replies go to the commands they answer, and no connection is handed out with bytes of an earlier reply to
come. -/
structure RepliesMatch (s : System) : Prop where
  calls : ∀ call ∈ s.calls, call.Matches
  handedOut : ∀ c ∈ s.handedOut, c.connected = true → c.channel.pending = []

/-- The requests are written, the replies arrive before a read fails, and the command reads replies of their shapes
to the end. -/
def Command.Meets (cmd : Command) (net : Network) : Prop :=
  ∃ rs : List Reply, (∀ r ∈ rs, r.WellFormed) ∧ cmd.Answered rs ∧ net.answers = (rs.map Reply.encode).map some ∧
    (rs.map Reply.encode).flatten.length ≤ net.arrives

def Event.Meets : Event → Prop
  | .acquire _ _ _ net => AnswersReplies net.answers
  | .command _ cmd net => cmd.Meets net
  | _ => True

/-- A connection that is closed, or that has nothing to come. -/
def Conn.Ready (c : Conn) : Prop := c.connected = true → Clean c.channel

structure SystemInv (s : System) : Prop where
  idle : ∀ key, ∀ entry ∈ s.pool.idle key, entry.client.Ready
  held : ∀ borrower key c, s.held borrower = some (key, c) → c.Ready
  replies : RepliesMatch s

theorem systemInv_init (cap : Nat) : SystemInv (.init cap) where
  idle _ _ h := absurd h List.not_mem_nil
  held _ _ _ h := absurd h nofun
  replies := ⟨fun _ h => absurd h List.not_mem_nil, fun _ h => absurd h List.not_mem_nil⟩

theorem Clean.on {c : Channel} (h : Clean c) (net : Network) : Clean (net.on c) := ⟨h.pending, h.intact⟩

theorem Conn.dial_ready (key : Key) (reachable : Bool) {net : Network} (h : AnswersReplies net.answers) :
    (Conn.dial key reachable net).Ready := by
  intro hconnected
  unfold dial at hconnected ⊢
  cases reachable with
  | false => exact absurd hconnected nofun
  | true =>
    rw [if_pos rfl] at hconnected ⊢
    rcases hconnect : connect (key.password ≠ []) (key.db ≠ 0) (net.on {}) with ⟨e | u, channel⟩
    · rw [hconnect] at hconnected
      exact absurd hconnected nofun
    · exact connect_ok (Clean.on ⟨rfl, rfl⟩ net) h hconnect

theorem popIdle_ready {now : Nat} {entries : List IdleEntry} (h : ∀ entry ∈ entries, entry.client.Ready) :
    (∀ c ∈ (popIdle now entries).1, c.Ready) ∧ ∀ entry ∈ (popIdle now entries).2, entry.client.Ready := by
  induction entries with
  | nil => exact ⟨fun _ hc => absurd hc nofun, fun _ he => absurd he List.not_mem_nil⟩
  | cons entry rest ih =>
    obtain ⟨hentry, hrest⟩ := List.forall_mem_cons.mp h
    unfold popIdle
    split
    · refine ⟨fun c hc => ?_, hrest⟩
      obtain rfl := Option.mem_some.mp hc
      exact hentry
    · exact ih hrest

theorem Pool.acquire_ready {pool : Pool} {key : Key} {now : Nat} {reachable : Bool} {net : Network}
    (h : ∀ key, ∀ entry ∈ pool.idle key, entry.client.Ready) (hnet : AnswersReplies net.answers) :
    (pool.acquire key now reachable net).1.Ready ∧
      ∀ key', ∀ entry ∈ (pool.acquire key now reachable net).2.idle key', entry.client.Ready := by
  obtain ⟨hpopped, hrest⟩ := @popIdle_ready now _ (h key)
  refine ⟨?_, fun key' entry hentry => ?_⟩
  · show ((popIdle now (pool.idle key)).1.getD _).Ready
    cases hidle : (popIdle now (pool.idle key)).1 with
    | none => exact Conn.dial_ready key reachable hnet
    | some c => exact hpopped c hidle
  · have hentry : entry ∈ Function.update pool.idle key (popIdle now (pool.idle key)).2 key' := hentry
    by_cases hkey : key' = key
    · rw [hkey, Function.update_self] at hentry
      exact hrest entry hentry
    · rw [Function.update_of_ne hkey] at hentry
      exact h key' entry hentry

theorem Pool.release_ready {pool : Pool} {key : Key} {c : Conn} {now : Nat}
    (h : ∀ key, ∀ entry ∈ pool.idle key, entry.client.Ready) (hc : c.Ready) :
    ∀ key', ∀ entry ∈ (pool.release key c now).idle key', entry.client.Ready := by
  intro key' entry hentry
  unfold release at hentry
  dsimp only at hentry
  split at hentry
  · exact h key' entry hentry
  · split at hentry
    · exact h key' entry hentry
    · by_cases hkey : key' = key
      · rw [hkey] at hentry
        dsimp only at hentry
        rw [Function.update_self] at hentry
        rcases List.mem_cons.mp hentry with rfl | hentry
        · exact hc
        · exact h key entry hentry
      · dsimp only at hentry
        rw [Function.update_of_ne hkey] at hentry
        exact h key' entry hentry

theorem redisError_ne (reply : List Char) : connectionFailed ≠ redisError reply := by
  intro heq
  have hfirst : connectionFailed.head? = some 'c' := by decide +kernel
  have hsecond : "redis error: ".toList.head? = some 'r' := by decide +kernel
  rw [heq] at hfirst
  unfold redisError at hfirst
  rw [List.head?_append, hsecond, Option.some_or] at hfirst
  exact absurd (Option.some.inj hfirst) (by decide)

/-- A command on a connection with nothing to come gets its own reply and leaves nothing behind. -/
theorem Conn.run_ready {c : Conn} {cmd : Command} {net : Network} (hc : c.Ready) (hmeets : cmd.Meets net) :
    (c.run cmd net).2.Ready ∧ Call.Matches ⟨cmd, net, (c.run cmd net).1⟩ := by
  unfold run
  split
  · next hconnected =>
    obtain ⟨rs, hwf, hanswered, hanswers, harrives⟩ := hmeets
    obtain ⟨out, hex⟩ := exchange_command hanswered hwf
    have hmore : net.answers = (rs.map Reply.encode).map some ++ [] := hanswers.trans (List.append_nil _).symm
    obtain ⟨hp, hi⟩ := (hc hconnected).on net
    have hbudget : ([] : List Char).length + (rs.map Reply.encode).flatten.length ≤ (net.on c.channel).budget := by
      show 0 + _ ≤ (net.on c.channel).buffer.length + net.arrives
      omega
    obtain ⟨channel, hrun, hp', hi', -⟩ := hex (net.on c.channel) [] hp hi hmore hbudget
    have hfresh : ([] : List Char).length + (rs.map Reply.encode).flatten.length ≤
        (net.answers.map (·.getD [])).flatten.length := by
      rw [hanswers, List.map_map]
      show 0 + _ ≤ ((rs.map Reply.encode).map fun b => (some b).getD []).flatten.length
      rw [show (fun b : List Char => (some b).getD []) = id from rfl, List.map_id]
      omega
    obtain ⟨_, hown, -⟩ := hex { answers := net.answers, arrives := (net.answers.map (·.getD [])).flatten.length }
      [] rfl rfl hmore (Nat.le_trans hfresh (Nat.le_add_left ..))
    rw [hrun]
    refine ⟨fun _ => ⟨hp', hi'⟩, fun _ => ?_⟩
    show out = (cmd.run _).1
    rw [hown]
  · refine ⟨hc, fun hreturned => ?_⟩
    obtain ⟨reply, hreply⟩ := hreturned connectionFailed rfl
    exact absurd hreply (redisError_ne reply)

theorem held_update {held : Nat → Option (Key × Conn)} {borrower : Nat} {after : Option (Key × Conn)}
    (h : ∀ borrower key c, held borrower = some (key, c) → c.Ready) (hafter : ∀ key c, after = some (key, c) → c.Ready) :
    ∀ borrower' key c, Function.update held borrower after borrower' = some (key, c) → c.Ready := by
  intro borrower' key c hheld
  by_cases hb : borrower' = borrower
  · rw [hb, Function.update_self] at hheld
    exact hafter key c hheld
  · rw [Function.update_of_ne hb] at hheld
    exact h borrower' key c hheld

theorem systemInv_acquire {s : System} (h : SystemInv s) (borrower : Nat) (key : Key) (reachable : Bool)
    {net : Network} (hnet : AnswersReplies net.answers) : SystemInv (s.acquire borrower key reachable net) := by
  obtain ⟨hready, hidle⟩ := @Pool.acquire_ready _ key s.now reachable _ h.idle hnet
  refine ⟨hidle, held_update h.held fun _ _ hafter => ?_, ⟨h.replies.calls, fun c hc hconnected => ?_⟩⟩
  · obtain ⟨-, rfl⟩ := Prod.mk.inj (Option.some.inj hafter)
    exact hready
  · rcases List.mem_cons.mp hc with rfl | hc
    · exact (hready hconnected).pending
    · exact h.replies.handedOut c hc hconnected

theorem systemInv_command {s : System} (h : SystemInv s) {borrower : Nat} {key : Key} {c : Conn}
    (hheld : s.held borrower = some (key, c)) {cmd : Command} {net : Network} (hmeets : cmd.Meets net) :
    SystemInv (s.command borrower key c cmd net) := by
  obtain ⟨hready, hmatches⟩ := Conn.run_ready (h.held borrower key c hheld) hmeets
  refine ⟨h.idle, held_update h.held fun _ _ hafter => ?_, ⟨fun call hcall => ?_, h.replies.handedOut⟩⟩
  · obtain ⟨-, rfl⟩ := Prod.mk.inj (Option.some.inj hafter)
    exact hready
  · rcases List.mem_cons.mp hcall with rfl | hcall
    · exact hmatches
    · exact h.replies.calls call hcall

theorem systemInv_release {s : System} (h : SystemInv s) {borrower : Nat} {key : Key} {c : Conn}
    (hheld : s.held borrower = some (key, c)) : SystemInv (s.release borrower key c) :=
  ⟨Pool.release_ready h.idle (h.held borrower key c hheld), held_update h.held nofun,
    h.replies.calls, h.replies.handedOut⟩

theorem systemInv_step {s s' : System} {event : Event} (h : SystemInv s) (hstep : s.step event = some s')
    (hmeets : event.Meets) : SystemInv s' := by
  cases event with
  | wait elapsed =>
    obtain rfl := Option.some.inj hstep
    exact ⟨h.idle, h.held, h.replies.calls, h.replies.handedOut⟩
  | acquire borrower key reachable net =>
    obtain ⟨-, hstep⟩ := Option.ite_none_right_eq_some.mp hstep
    obtain rfl := Option.some.inj hstep
    exact systemInv_acquire h borrower key reachable hmeets
  | command borrower cmd net =>
    obtain ⟨⟨key, c⟩, hheld, rfl⟩ := Option.map_eq_some_iff.mp hstep
    exact systemInv_command h hheld hmeets
  | release borrower =>
    obtain ⟨⟨key, c⟩, hheld, rfl⟩ := Option.map_eq_some_iff.mp hstep
    exact systemInv_release h hheld

theorem systemInv_run {s s' : System} {events : List Event} (h : SystemInv s) (hrun : s.run events = some s')
    (hmeets : ∀ event ∈ events, event.Meets) : SystemInv s' := by
  induction events generalizing s with
  | nil =>
    obtain rfl := Option.some.inj hrun
    exact h
  | cons event events ih =>
    obtain ⟨hevent, hevents⟩ := List.forall_mem_cons.mp hmeets
    obtain ⟨s₁, hstep, hrest⟩ := Option.bind_eq_some_iff.mp hrun
    exact ih (systemInv_step h hstep hevent) hrest hevents

/-- In a run whose commands get their replies in full, in shapes they read to the end, every reply goes to the
command it answers. -/
theorem replies_match {cap : Nat} {events : List Event} {s : System} (hrun : (System.init cap).run events = some s)
    (hmeets : ∀ event ∈ events, event.Meets) : RepliesMatch s :=
  (systemInv_run (systemInv_init cap) hrun hmeets).replies

/-- A borrower's `GET` of a value. -/
def getEvents (borrower : Nat) (value : Char) (arrives : Nat) : List Event :=
  [.acquire borrower ⟨[], 6379, [], 0⟩ true {},
    .command borrower (.method .get) { answers := [some ['$', '1', '\r', '\n', value, '\r', '\n']], arrives },
    .release borrower]

theorem replies_match_get : ∃ s, (System.init 0).run (getEvents 0 'A' 7) = some s ∧ RepliesMatch s := by
  obtain ⟨s, hs⟩ := Option.isSome_iff_exists.mp
    (show ((System.init 0).run (getEvents 0 'A' 7)).isSome = true by decide +kernel)
  have hdecimal : decimalInt 1 = ['1'] := by
    unfold decimalInt decimal
    rfl
  have hencode : (Reply.bulk (some ['A'])).encode = ['$', '1', '\r', '\n', 'A', '\r', '\n'] := by
    show '$' :: (decimalInt 1 ++ crlf ++ (['A'] ++ crlf)) = _
    rw [hdecimal]
    rfl
  have hmeets : (Command.method .get).Meets
      { answers := [some ['$', '1', '\r', '\n', 'A', '\r', '\n']], arrives := 7 } := by
    refine ⟨[.bulk (some ['A'])], List.forall_mem_singleton.mpr (.bulk (by decide)), ⟨_, rfl, rfl, trivial⟩, ?_⟩
    rw [List.map_singleton, hencode]
    exact ⟨rfl, by decide⟩
  refine ⟨s, hs, replies_match hs fun event hevent => ?_⟩
  rcases List.mem_cons.mp hevent with rfl | hevent
  · exact fun _ ha => absurd ha List.not_mem_nil
  · rcases List.mem_cons.mp hevent with rfl | hevent
    · exact hmeets
    · obtain rfl := List.mem_singleton.mp hevent
      trivial

/-- The value of a `GET`. -/
def Call.value : Call → Option (Option (List Char))
  | { cmd := .method .get, out := .ok value, .. } => some value
  | _ => none

theorem Call.value_error {call : Call} {text : List Char} (h : call.out = .error text) : call.value = none := by
  obtain ⟨cmd, net, out⟩ := call
  obtain rfl : out = .error text := h
  rcases cmd with ⟨_ | _⟩ | _ <;> rfl

/-- A `GET` gives up before its reply comes; the connection goes back to the pool, and the next borrower's `GET`
returns that reply. -/
theorem late_reply_returned : ∃ s, (System.init 0).run (getEvents 0 'A' 0 ++ getEvents 1 'B' 14) = some s ∧
    ¬ RepliesMatch s := by
  obtain ⟨s, hs⟩ := Option.isSome_iff_exists.mp
    (show ((System.init 0).run (getEvents 0 'A' 0 ++ getEvents 1 'B' 14)).isSome = true by decide +kernel)
  have hcalls : ((System.init 0).run (getEvents 0 'A' 0 ++ getEvents 1 'B' 14)).map
      (fun s => s.calls.map fun call => (call.value, Call.value { call with out := call.own })) =
      some [(some (some ['A']), some (some ['B'])), (none, some (some ['A']))] := by decide +kernel
  rw [hs, Option.map_some] at hcalls
  obtain ⟨call, rest, hlist, hcall, -⟩ := List.map_eq_cons_iff.mp (Option.some.inj hcalls)
  obtain ⟨hvalue, hown⟩ := Prod.mk.inj hcall
  refine ⟨s, hs, fun h => ?_⟩
  have hmatches := h.calls call (hlist ▸ List.mem_cons_self) fun text htext => ?_
  · have heq : Call.value { call with out := call.own } = call.value := by rw [← hmatches]
    rw [hvalue, hown] at heq
    exact absurd heq (by decide)
  · rw [Call.value_error htext] at hvalue
    exact absurd hvalue nofun

end Pineapple.Redis
