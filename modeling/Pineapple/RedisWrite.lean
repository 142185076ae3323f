import Mathlib.Logic.Function.Basic
import Mathlib.Logic.Relation
import Mathlib.Data.List.Nodup
import Mathlib.Tactic.Tauto

/-! # Writing a set or a list (`redis_set.go`, `TransformRedisSet.java`, `transform_redis_set.cpp`)

A write is a `DEL`, a push and an `EXPIRE`. The Go and Java clients send them as a plain pipeline, the C++ client
between `MULTI` and `EXEC`. Every run here is on one key; the passing of time, which lets a key expire, is left
out. -/

namespace Pineapple.RedisWrite

abbrev Member := List Char

/-- `data_type`, less `string`. -/
inductive Kind
  | set
  | list
deriving DecidableEq

/-- A key's value and the seconds until it expires. -/
structure Entry where
  kind : Kind
  members : List Member
  expiry : Option Nat

inductive Command
  | del
  | push (kind : Kind) (members : List Member)
  | expire (ttl : Nat)

/-- `SADD` leaves out what is there, `RPUSH` appends. -/
def Kind.add : Kind → List Member → List Member → List Member
  | .set, old, members => members.foldl (fun l m => l.insert m) old
  | .list, old, members => old ++ members

/-- What the server does with a command; a push on a key of the other kind fails. -/
def apply (key : Option Entry) : Command → Option Entry
  | .del => none
  | .push kind members =>
    match key with
    | none => some { kind, members := kind.add [] members, expiry := none }
    | some e => if e.kind = kind then some { e with members := kind.add e.members members } else some e
  | .expire ttl => key.map ({ · with expiry := some ttl })

/-- What a write stores. -/
structure Write where
  kind : Kind
  members : List Member
  ttl : Int
  nonempty : members ≠ []

def Write.expiry (w : Write) : Option Nat := if 0 < w.ttl then some w.ttl.toNat else none

def Write.commands (w : Write) : List Command :=
  [.del, .push w.kind w.members] ++ w.expiry.toList.map .expire

/-- `execute` with the value's strings, when the value is a list: a write, unless there are none. -/
def execute (kind : Kind) (value : Option (List Member)) (ttl : Int) : Option Write :=
  match value with
  | none => none
  | some members => if h : members = [] then none else some { kind, members, ttl, nonempty := h }

inductive Engine
  | go
  | java
  | cpp
deriving DecidableEq

inductive Request
  | multi
  | run (cmd : Command)
  | exec

/-- `Pipeline` of the Go and Java clients; `write_multiexec` of the C++ client. -/
def Engine.requests (engine : Engine) (w : Write) : List Request :=
  match engine with
  | .go | .java => w.commands.map .run
  | .cpp => [.multi] ++ w.commands.map .run ++ [.exec]

/-- A write on its connection: the commands the server has queued, inside a transaction, and the requests the server
has not seen. -/
structure Client where
  engine : Engine
  write : Write
  queue : Option (List Command) := none
  rest : List Request

def Engine.send (engine : Engine) (w : Write) : Client := { engine, write := w, rest := engine.requests w }

/-- The server answers a request of a client. -/
def Client.serve (c : Client) (key : Option Entry) (r : Request) (rest : List Request) : Option Entry × Client :=
  match r, c.queue with
  | .multi, _ => (key, { c with queue := some [], rest })
  | .run cmd, none => (apply key cmd, { c with rest })
  | .run cmd, some q => (key, { c with queue := some (q ++ [cmd]), rest })
  | .exec, q => ((q.getD []).foldl apply key, { c with queue := none, rest })

/-- What a read got, none for `WRONGTYPE`, and the writes completed before it. -/
structure Read where
  kind : Kind
  reply : Option (List Member)
  completed : List Write

structure State where
  key : Option Entry := none
  clients : Nat → Option Client := fun _ => none
  completed : List Write := []
  reads : List Read := []

/-- `SMEMBERS` in any order, `LRANGE` of all. -/
def Kind.Answers (kind : Kind) : Option Entry → Option (List Member) → Prop
  | none, reply => reply = some []
  | some e, none => e.kind ≠ kind
  | some e, some xs =>
    e.kind = kind ∧
      match kind with
      | .set => xs.Perm e.members
      | .list => xs = e.members

inductive Event
  | start (i : Nat) (engine : Engine) (kind : Kind) (value : Option (List Member)) (ttl : Int)
  | serve (i : Nat)
  /-- The server refuses a command. -/
  | refuse (i : Nat)
  /-- The connection is lost, and what it had queued. -/
  | lose (i : Nat)
  | read (kind : Kind)

/-- The client goes on, or its write is complete. -/
def State.served (s : State) (i : Nat) (key : Option Entry) (c : Client) : State :=
  match c.rest with
  | [] => { s with key, clients := Function.update s.clients i none, completed := s.completed ++ [c.write] }
  | _ :: _ => { s with key, clients := Function.update s.clients i (some c) }

/-- A plain pipeline goes on after a refused command; `write_multiexec` throws. -/
def Client.refused (c : Client) (rest : List Request) : Option Client :=
  match c.engine, rest with
  | .cpp, _ => none
  | _, [] => none
  | _, rest => some { c with rest }

inductive Step (s : State) : Event → State → Prop
  | start {i : Nat} {engine : Engine} {kind : Kind} {value : Option (List Member)} {ttl : Int} {w : Write} :
      s.clients i = none → execute kind value ttl = some w →
      Step s (.start i engine kind value ttl) { s with clients := Function.update s.clients i (some (engine.send w)) }
  | serve {i : Nat} {c : Client} {r : Request} {rest : List Request} :
      s.clients i = some c → c.rest = r :: rest →
      Step s (.serve i) (s.served i (c.serve s.key r rest).1 (c.serve s.key r rest).2)
  | refuse {i : Nat} {c : Client} {r : Request} {rest : List Request} :
      s.clients i = some c → c.rest = r :: rest →
      Step s (.refuse i) { s with clients := Function.update s.clients i (c.refused rest) }
  | lose {i : Nat} {c : Client} :
      s.clients i = some c → Step s (.lose i) { s with clients := Function.update s.clients i none }
  | read {kind : Kind} {reply : Option (List Member)} :
      kind.Answers s.key reply →
      Step s (.read kind) { s with reads := s.reads ++ [{ kind, reply, completed := s.completed }] }

/-! ## What is promised -/

/-- The members a write stores, in its order where there is one. -/
def Write.Shows (w : Write) (xs : List Member) : Prop :=
  match w.kind with
  | .set => xs.Nodup ∧ ∀ m, m ∈ xs ↔ m ∈ w.members
  | .list => xs = w.members

/-- The members of one completed write, or a miss before the first; `WRONGTYPE` only for a write of the other kind. -/
def Read.Whole (r : Read) : Prop :=
  match r.reply with
  | none => ∃ w ∈ r.completed, w.kind ≠ r.kind
  | some xs => (xs = [] ∧ r.completed = []) ∨ ∃ w ∈ r.completed, w.kind = r.kind ∧ w.Shows xs

def Entry.Holds (e : Entry) (w : Write) : Prop := e.kind = w.kind ∧ w.Shows e.members ∧ e.expiry = w.expiry

structure Whole (s : State) : Prop where
  reads : ∀ r ∈ s.reads, r.Whole
  /-- After the last write. -/
  settled : (∀ i, s.clients i = none) → ∀ w, s.completed.getLast? = some w → ∃ e, s.key = some e ∧ e.Holds w

/-! ## When it is kept -/

/-- Some commands of a plain pipeline have run, and not all. -/
def Client.Midway (c : Client) : Prop := c.engine ≠ .cpp ∧ c.rest.length < (c.engine.requests c.write).length

/-- The next request is one that touches the key. -/
def Client.Touches (c : Client) : Prop := c.engine = .cpp → c.rest = [.exec]

/-- While a plain pipeline is midway, only its own commands touch the key; no command of one is refused, and none is
cut off midway. -/
def Undisturbed (s : State) : Event → Prop
  | .start .. => True
  | .serve i => (∀ c, s.clients i = some c → c.Touches) → ∀ j d, s.clients j = some d → d.Midway → j = i
  | .refuse i => ∀ c, s.clients i = some c → c.engine = .cpp
  | .lose i => ∀ c, s.clients i = some c → ¬c.Midway
  | .read _ => ∀ j d, s.clients j = some d → ¬d.Midway

/-! ## Commands -/

theorem foldl_insert_spec (members old : List Member) (hold : old.Nodup) :
    (members.foldl (fun l m => l.insert m) old).Nodup ∧
      ∀ m, m ∈ members.foldl (fun l m => l.insert m) old ↔ m ∈ old ∨ m ∈ members := by
  induction members generalizing old with
  | nil => simp [hold]
  | cons x xs ih =>
    obtain ⟨hnodup, hmem⟩ := ih (old.insert x) hold.insert
    refine ⟨hnodup, fun m => ?_⟩
    rw [List.foldl_cons, hmem m, List.mem_insert_iff, List.mem_cons]
    tauto

namespace Write

variable (w : Write)

/-- What the key holds once the write is complete. -/
def entry : Entry where
  kind := w.kind
  members := w.kind.add [] w.members
  expiry := w.expiry

theorem shows_entry : w.Shows w.entry.members := by
  unfold Shows entry
  cases hk : w.kind with
  | set =>
    obtain ⟨hnodup, hmem⟩ := foldl_insert_spec w.members [] List.nodup_nil
    exact ⟨hnodup, fun m => by simpa [Kind.add] using hmem m⟩
  | list => simp [Kind.add]

theorem entry_holds : w.entry.Holds w := ⟨rfl, w.shows_entry, rfl⟩

/-- Whatever the key held. -/
theorem foldl_commands (key : Option Entry) : w.commands.foldl apply key = some w.entry := by
  unfold commands entry
  cases w.expiry with
  | none => simp [apply]
  | some ttl => simp [apply]

theorem commands_eq : ∃ tail, w.commands = .del :: tail := ⟨_, rfl⟩

end Write

/-- A read of a whole entry. -/
theorem Kind.Answers.whole {kind : Kind} {reply : Option (List Member)} {completed : List Write}
    (h : kind.Answers (completed.getLast?.map Write.entry) reply) : ({ kind, reply, completed } : Read).Whole := by
  unfold Read.Whole
  dsimp only
  cases hlast : completed.getLast? with
  | none =>
    rw [hlast] at h
    rw [show reply = some [] from h]
    exact .inl ⟨rfl, List.getLast?_eq_none_iff.mp hlast⟩
  | some w =>
    rw [hlast] at h
    have hmem : w ∈ completed := List.mem_of_getLast? hlast
    cases reply with
    | none => exact ⟨w, hmem, h⟩
    | some xs =>
      obtain ⟨hkind, hxs⟩ := h
      refine .inr ⟨w, hmem, hkind, ?_⟩
      have hshows := w.shows_entry
      unfold Write.Shows at hshows ⊢
      rw [show w.kind = kind from hkind] at hshows ⊢
      cases kind with
      | set => exact ⟨hxs.nodup_iff.mpr hshows.1, fun m => hxs.mem_iff.trans (hshows.2 m)⟩
      | list => exact (show xs = w.entry.members from hxs).trans hshows

/-! ## The invariant -/

/-- Where a client is in its requests. -/
inductive Client.Ok : Client → Prop
  | plain {engine : Engine} {w : Write} {ran cmds : List Command} :
      engine ≠ .cpp → w.commands = ran ++ cmds → cmds ≠ [] → Ok { engine, write := w, rest := cmds.map .run }
  | opening {w : Write} : Ok (Engine.cpp.send w)
  | queued {w : Write} {q cmds : List Command} :
      w.commands = q ++ cmds → Ok { engine := .cpp, write := w, queue := some q, rest := cmds.map .run ++ [.exec] }

/-- What the key holds when no pipeline is midway. -/
def State.settled (s : State) : Option Entry := s.completed.getLast?.map Write.entry

/-- What the commands of a pipeline that ran have made of the key. -/
def Client.HasRun (c : Client) (key : Option Entry) : Prop :=
  ∃ ran cmds, c.write.commands = ran ++ cmds ∧ c.rest = cmds.map .run ∧ key = ran.foldl apply none

structure Inv (s : State) : Prop where
  ok : ∀ i c, s.clients i = some c → c.Ok
  key : (∀ i c, s.clients i = some c → ¬c.Midway) → s.key = s.settled
  midway : ∀ i c, s.clients i = some c → c.Midway → c.HasRun s.key
  alone : ∀ i c j d, s.clients i = some c → c.Midway → s.clients j = some d → d.Midway → i = j
  reads : ∀ r ∈ s.reads, r.Whole

theorem Inv.init : Inv {} := by
  constructor <;> simp [State.settled]

theorem Inv.whole {s : State} (h : Inv s) : Whole s where
  reads := h.reads
  settled hnone w hw := by
    refine ⟨w.entry, ?_, w.entry_holds⟩
    have hkey := h.key fun i c hc => by simp [hnone i] at hc
    rw [hkey, State.settled, hw]
    rfl

/-! ## Clients -/

namespace Client

theorem not_midway_send (engine : Engine) (w : Write) : ¬(engine.send w).Midway := fun h => Nat.lt_irrefl _ h.2

theorem ok_send (engine : Engine) (w : Write) : (engine.send w).Ok := by
  cases engine with
  | cpp => exact .opening
  | go => exact @Ok.plain .go w [] w.commands nofun rfl nofun
  | java => exact @Ok.plain .java w [] w.commands nofun rfl nofun

theorem not_midway_of_cpp {c : Client} (h : c.engine = .cpp) : ¬c.Midway := fun hmid => hmid.1 h

theorem requests_plain {engine : Engine} (h : engine ≠ .cpp) (w : Write) :
    engine.requests w = w.commands.map .run := by
  cases engine with
  | cpp => exact (h rfl).elim
  | go => rfl
  | java => rfl

/-- The commands that ran are the rest of the requests. -/
theorem HasRun.eq {c : Client} {key : Option Entry} {ran cmds : List Command} (h : c.HasRun key)
    (hc : c.write.commands = ran ++ cmds) (hrest : c.rest = cmds.map .run) : key = ran.foldl apply none := by
  obtain ⟨ran', cmds', hc', hrest', hkey⟩ := h
  have hcmds : cmds' = cmds := (List.map_injective_iff.mpr fun _ _ => Request.run.inj) (hrest'.symm.trans hrest)
  have hran : ran' = ran := List.append_cancel_right (hcmds ▸ hc'.symm.trans hc)
  rw [hkey, hran]

theorem midway_plain {engine : Engine} {w : Write} {ran cmds : List Command} (he : engine ≠ .cpp)
    (hw : w.commands = ran ++ cmds) (hran : ran ≠ []) :
    ({ engine, write := w, rest := cmds.map .run } : Client).Midway := by
  refine ⟨he, ?_⟩
  have hpos := List.length_pos_iff.mpr hran
  rw [requests_plain he, hw]
  simp
  exact hpos

end Client

/-! ## The steps -/

theorem update_cases {α : Type} {f : Nat → Option α} {i j : Nat} {o : Option α} {d : α}
    (h : Function.update f i o j = some d) : (j = i ∧ o = some d) ∨ (j ≠ i ∧ f j = some d) := by
  by_cases hj : j = i
  · subst hj
    rw [Function.update_self] at h
    exact .inl ⟨rfl, h⟩
  · rw [Function.update_of_ne hj] at h
    exact .inr ⟨hj, h⟩

namespace Inv

variable {s : State} {i : Nat}

/-- A client that is not midway is replaced by one that is not. -/
theorem replace (h : Inv s) {o : Option Client} (hold : ∀ c, s.clients i = some c → ¬c.Midway)
    (hnew : ∀ c, o = some c → c.Ok ∧ ¬c.Midway) : Inv { s with clients := Function.update s.clients i o } where
  ok j d hd := by
    rcases update_cases hd with ⟨_, ho⟩ | ⟨_, hj⟩
    · exact (hnew d ho).1
    · exact h.ok j d hj
  key hnone := by
    refine h.key fun j d hd hmid => ?_
    by_cases hj : j = i
    · exact hold d (hj ▸ hd) hmid
    · exact hnone j d (by simpa [Function.update_of_ne hj] using hd) hmid
  midway j d hd hmid := by
    rcases update_cases hd with ⟨_, ho⟩ | ⟨_, hj⟩
    · exact ((hnew d ho).2 hmid).elim
    · exact h.midway j d hj hmid
  alone j d k e hd hdm he hem := by
    rcases update_cases hd with ⟨_, ho⟩ | ⟨_, hj⟩
    · exact ((hnew d ho).2 hdm).elim
    · rcases update_cases he with ⟨_, ho⟩ | ⟨_, hk⟩
      · exact ((hnew e ho).2 hem).elim
      · exact h.alone j d k e hj hdm hk hem
  reads := h.reads

/-- The last command of a write. -/
theorem complete (h : Inv s) {w : Write} (hothers : ∀ j d, s.clients j = some d → d.Midway → j = i) :
    Inv { s with key := some w.entry, clients := Function.update s.clients i none, completed := s.completed ++ [w] } := by
  have hnone : ∀ j d, Function.update s.clients i none j = some d → ¬d.Midway := by
    intro j d hd hmid
    rcases update_cases hd with ⟨_, ho⟩ | ⟨hj, hd⟩
    · cases ho
    · exact hj (hothers j d hd hmid)
  refine ⟨fun j d hd => ?_, fun _ => by simp [State.settled], fun j d hd hmid => (hnone j d hd hmid).elim,
    fun j d _ _ hd hmid _ _ => (hnone j d hd hmid).elim, h.reads⟩
  rcases update_cases hd with ⟨_, ho⟩ | ⟨_, hd⟩
  · cases ho
  · exact h.ok j d hd

/-- A command of a plain pipeline, with more to come. -/
theorem advance (h : Inv s) {c : Client} {key : Option Entry} (hok : c.Ok) (hmid : c.Midway) (hrun : c.HasRun key)
    (hothers : ∀ j d, s.clients j = some d → d.Midway → j = i) :
    Inv { s with key, clients := Function.update s.clients i (some c) } := by
  have hat : ∀ j d, Function.update s.clients i (some c) j = some d → d.Midway → j = i ∧ d = c := by
    intro j d hd hdm
    rcases update_cases hd with ⟨hj, ho⟩ | ⟨hj, hd⟩
    · cases ho
      exact ⟨hj, rfl⟩
    · exact (hj (hothers j d hd hdm)).elim
  refine ⟨fun j d hd => ?_, fun hnone => ?_, fun j d hd hdm => ?_, fun j d k e hd hdm he hem => ?_, h.reads⟩
  · rcases update_cases hd with ⟨_, ho⟩ | ⟨_, hd⟩
    · cases ho
      exact hok
    · exact h.ok j d hd
  · exact (hnone i c (Function.update_self ..) hmid).elim
  · rw [(hat j d hd hdm).2]
    exact hrun
  · rw [(hat j d hd hdm).1, (hat k e he hem).1]

/-- A command of a plain pipeline. -/
theorem serve_plain (h : Inv s) {engine : Engine} {w : Write} {ran cmds : List Command} {cmd : Command}
    (he : engine ≠ .cpp) (hw : w.commands = ran ++ cmd :: cmds)
    (hc : s.clients i = some { engine, write := w, rest := (cmd :: cmds).map .run })
    (hothers : ∀ j d, s.clients j = some d → d.Midway → j = i) :
    Inv (s.served i (apply s.key cmd) { engine, write := w, rest := cmds.map .run }) := by
  have hw' : w.commands = (ran ++ [cmd]) ++ cmds := by simpa using hw
  -- the first command clears the key; before any other the key is what the pipeline has made of it
  have hkey : apply s.key cmd = (ran ++ [cmd]).foldl apply none := by
    rcases List.eq_nil_or_concat' ran with rfl | ⟨_, _, hran⟩
    · obtain ⟨tail, htail⟩ := w.commands_eq
      cases htail.symm.trans hw
      rfl
    · have hmid := Client.midway_plain he hw (by rw [hran]; simp)
      rw [List.foldl_append, ← (h.midway i _ hc hmid).eq hw rfl]
      rfl
  cases cmds with
  | nil =>
    have hentry : apply s.key cmd = some w.entry := by
      rw [hkey, ← List.append_nil (ran ++ [cmd]), ← hw', w.foldl_commands]
    rw [hentry]
    exact h.complete hothers
  | cons next cmds =>
    exact h.advance (.plain he hw' nofun) (Client.midway_plain he hw' (by simp)) ⟨_, _, hw', rfl, hkey⟩ hothers

theorem serve (h : Inv s) {c : Client} {r : Request} {rest : List Request} (hc : s.clients i = some c)
    (hrest : c.rest = r :: rest) (hund : Undisturbed s (.serve i)) :
    Inv (s.served i (c.serve s.key r rest).1 (c.serve s.key r rest).2) := by
  have htouch : c.Touches → ∀ j d, s.clients j = some d → d.Midway → j = i :=
    fun ht => hund fun d hd => by cases hd.symm.trans hc; exact ht
  cases h.ok i c hc with
  | @plain engine w ran cmds he hw hne =>
    cases cmds with
    | nil => exact (hne rfl).elim
    | cons cmd cmds =>
      cases hrest
      exact h.serve_plain he hw hc (htouch fun hcpp => (he hcpp).elim)
  | @opening w =>
    cases hrest
    refine h.replace (fun d hd => ?_) fun d hd => ?_
    · cases hd.symm.trans hc
      exact Client.not_midway_send _ w
    · cases hd
      exact ⟨.queued (q := []) rfl, Client.not_midway_of_cpp rfl⟩
  | @queued w q cmds hw =>
    cases cmds with
    | nil =>
      cases hrest
      have hentry : q.foldl apply s.key = some w.entry := by
        rw [← w.foldl_commands s.key, hw, List.append_nil]
      dsimp only [Client.serve, Option.getD_some]
      rw [hentry]
      exact h.complete (htouch fun _ => rfl)
    | cons cmd cmds =>
      cases hrest
      have hnew : Client.Ok { engine := .cpp, write := w, queue := some (q ++ [cmd]), rest := cmds.map .run ++ [.exec] } :=
        .queued (by simpa using hw)
      have hserved := h.replace (i := i) (o := some _)
        (fun d hd => by cases hd.symm.trans hc; exact Client.not_midway_of_cpp rfl)
        fun d hd => by cases hd; exact ⟨hnew, Client.not_midway_of_cpp rfl⟩
      cases cmds with
      | nil => exact hserved
      | cons next cmds => exact hserved

theorem step (h : Inv s) {e : Event} {s' : State} (hund : Undisturbed s e) (hstep : Step s e s') : Inv s' := by
  cases hstep with
  | @start i engine kind value ttl w hnone _ =>
    refine h.replace (fun c hc => by rw [hnone] at hc; cases hc) fun c hc => ?_
    cases hc
    exact ⟨Client.ok_send engine w, Client.not_midway_send engine w⟩
  | serve hc hrest => exact h.serve hc hrest hund
  | @refuse i c r rest hc hrest =>
    have hcpp := hund c hc
    refine h.replace (fun d hd => ?_) fun d hd => ?_
    · exact Client.not_midway_of_cpp (hund d hd)
    · unfold Client.refused at hd
      rw [hcpp] at hd
      cases hd
  | lose hc => exact h.replace hund nofun
  | @read kind reply hans =>
    refine ⟨h.ok, h.key, h.midway, h.alone, fun r hr => ?_⟩
    rcases List.mem_append.mp hr with hr | hr
    · exact h.reads r hr
    · rw [List.mem_singleton.mp hr]
      rw [h.key hund] at hans
      exact hans.whole

end Inv

/-! ## Runs -/

/-- Every step of the run keeps to a condition. -/
def RunOf (cond : State → Event → Prop) : State → State → Prop :=
  Relation.ReflTransGen fun s s' => ∃ e, cond s e ∧ Step s e s'

/-- While no pipeline is disturbed, every read is whole, and so is what the writes leave. -/
theorem whole_of_undisturbed {s : State} (h : RunOf Undisturbed {} s) : Whole s := by
  refine Inv.whole ?_
  induction h with
  | refl => exact .init
  | tail _ hstep ih =>
    obtain ⟨e, hund, hstep⟩ := hstep
    exact ih.step hund hstep

/-- The steps in which only the C++ client writes. -/
def ByCpp (_ : State) : Event → Prop
  | .start _ engine .. => engine = .cpp
  | _ => True

theorem Step.cpp {s s' : State} {e : Event} (h : ∀ i c, s.clients i = some c → c.engine = .cpp) (hby : ByCpp s e)
    (hstep : Step s e s') : ∀ i c, s'.clients i = some c → c.engine = .cpp := by
  intro j d hd
  cases hstep with
  | @start i engine kind value ttl w _ _ =>
    rcases update_cases hd with ⟨_, ho⟩ | ⟨_, hd⟩
    · cases ho
      exact hby
    · exact h j d hd
  | @serve i c r rest hc _ =>
    have hengine : (c.serve s.key r rest).2.engine = .cpp := by
      rw [← h i c hc]
      unfold Client.serve
      split <;> rfl
    unfold State.served at hd
    split at hd
    · rcases update_cases hd with ⟨_, ho⟩ | ⟨_, hd⟩
      · cases ho
      · exact h j d hd
    · rcases update_cases hd with ⟨_, ho⟩ | ⟨_, hd⟩
      · cases ho
        exact hengine
      · exact h j d hd
  | @refuse i c r rest hc _ =>
    rcases update_cases hd with ⟨_, ho⟩ | ⟨_, hd⟩
    · unfold Client.refused at ho
      rw [h i c hc] at ho
      cases ho
    · exact h j d hd
  | lose _ =>
    rcases update_cases hd with ⟨_, ho⟩ | ⟨_, hd⟩
    · cases ho
    · exact h j d hd
  | read _ => exact h j d hd

/-- Transactions are never disturbed. -/
theorem undisturbed_of_cpp {s : State} (h : ∀ i c, s.clients i = some c → c.engine = .cpp) (e : Event) :
    Undisturbed s e := by
  cases e with
  | start => trivial
  | serve => exact fun _ j d hd hmid => (Client.not_midway_of_cpp (h j d hd) hmid).elim
  | refuse i => exact h i
  | lose i => exact fun c hc => Client.not_midway_of_cpp (h i c hc)
  | read => exact fun j d hd => Client.not_midway_of_cpp (h j d hd)

/-- With the C++ client alone every run is undisturbed. -/
theorem undisturbed_of_byCpp {s : State} (h : RunOf ByCpp {} s) :
    RunOf Undisturbed {} s ∧ ∀ i c, s.clients i = some c → c.engine = .cpp := by
  induction h with
  | refl => exact ⟨.refl, nofun⟩
  | tail _ hstep ih =>
    obtain ⟨e, hby, hstep⟩ := hstep
    exact ⟨ih.1.tail ⟨e, undisturbed_of_cpp ih.2 e, hstep⟩, hstep.cpp ih.2 hby⟩

/-- Whatever their requests meet, what the C++ clients write is read whole. -/
theorem whole_of_byCpp {s : State} (h : RunOf ByCpp {} s) : Whole s := by
  refine Inv.whole ?_
  obtain ⟨hrun, -⟩ := undisturbed_of_byCpp h
  clear h
  induction hrun with
  | refl => exact .init
  | tail _ hstep ih =>
    obtain ⟨e, hundisturbed, hstep⟩ := hstep
    exact ih.step hundisturbed hstep

/-! ## Examples -/

def valueA : List Member := [['a']]

def valueB : List Member := [['b']]

theorem undisturbed_serve {s : State} {i : Nat} (h : ∀ j, j ≠ i → s.clients j = none) : Undisturbed s (.serve i) := by
  intro _ j d hd _
  by_contra hj
  rw [h j hj] at hd
  cases hd

theorem undisturbed_read {s : State} (h : ∀ j, s.clients j = none) (kind : Kind) : Undisturbed s (.read kind) := by
  intro j d hd _
  rw [h j] at hd
  cases hd

theorem update_eq_none {f : Nat → Option Client} {i : Nat} {o : Option Client} (h : ∀ j, j ≠ i → f j = none) :
    ∀ j, j ≠ i → Function.update f i o j = none :=
  fun j hj => (Function.update_of_ne hj _ _).trans (h j hj)

/-- A write of the Go client, and a read of it. -/
theorem whole_of_undisturbed_go : ∃ s, RunOf Undisturbed {} s ∧ (∃ r ∈ s.reads, r.reply = some valueA) ∧ Whole s := by
  let w : Write := { kind := .list, members := valueA, ttl := 0, nonempty := nofun }
  have h1 : RunOf Undisturbed {} _ :=
    .tail .refl ⟨.start 0 .go .list (some valueA) 0, trivial, .start (w := w) rfl rfl⟩
  have hclients1 := update_eq_none (f := fun _ => none) (i := 0) (o := some (Engine.go.send w)) fun _ _ => rfl
  have h2 := h1.tail ⟨.serve 0, undisturbed_serve hclients1, .serve (i := 0) rfl rfl⟩
  have hclients2 := update_eq_none (o := some ((Engine.go.send w).serve none (.run .del) [.run (.push .list valueA)]).2) hclients1
  have h3 := h2.tail ⟨.serve 0, undisturbed_serve hclients2, .serve (i := 0) rfl rfl⟩
  have hclients3 (j : Nat) : Function.update (Function.update (Function.update (fun _ => none) 0 (some (Engine.go.send w)))
      0 (some ((Engine.go.send w).serve none (.run .del) [.run (.push .list valueA)]).2)) 0 none j = none := by
    by_cases hj : j = 0
    · rw [hj, Function.update_self]
    · rw [Function.update_of_ne hj, hclients2 j hj]
  have h4 := h3.tail ⟨.read .list, undisturbed_read hclients3 .list, @Step.read _ .list (some valueA) ⟨rfl, rfl⟩⟩
  exact ⟨_, h4, ⟨_, List.mem_singleton_self _, rfl⟩, whole_of_undisturbed h4⟩

/-- Two transactions of the C++ client whose requests alternate. -/
theorem whole_of_byCpp_two : ∃ s, RunOf ByCpp {} s ∧ (∃ r ∈ s.reads, r.reply = some valueB) ∧ Whole s := by
  let wa : Write := { kind := .list, members := valueA, ttl := 0, nonempty := nofun }
  let wb : Write := { kind := .list, members := valueB, ttl := 0, nonempty := nofun }
  have h1 : RunOf ByCpp {} _ := .tail .refl ⟨.start 0 .cpp .list (some valueA) 0, rfl, .start (w := wa) rfl rfl⟩
  have h2 := h1.tail ⟨.start 1 .cpp .list (some valueB) 0, rfl, .start (w := wb) rfl rfl⟩
  have hmulti := (h2.tail ⟨.serve 0, trivial, .serve (i := 0) rfl rfl⟩).tail ⟨.serve 1, trivial, .serve (i := 1) rfl rfl⟩
  have hdel := (hmulti.tail ⟨.serve 0, trivial, .serve (i := 0) rfl rfl⟩).tail ⟨.serve 1, trivial, .serve (i := 1) rfl rfl⟩
  have hpush := (hdel.tail ⟨.serve 0, trivial, .serve (i := 0) rfl rfl⟩).tail ⟨.serve 1, trivial, .serve (i := 1) rfl rfl⟩
  have hexec := (hpush.tail ⟨.serve 0, trivial, .serve (i := 0) rfl rfl⟩).tail ⟨.serve 1, trivial, .serve (i := 1) rfl rfl⟩
  have hread := hexec.tail ⟨.read .list, trivial, @Step.read _ .list (some valueB) ⟨rfl, rfl⟩⟩
  exact ⟨_, hread, ⟨_, List.mem_singleton_self _, rfl⟩, whole_of_byCpp hread⟩

/-- Two pipelines of the Go client whose commands alternate. -/
theorem not_always_whole : ¬∀ s, RunOf (fun _ _ => True) {} s → Whole s := by
  intro hall
  let wa : Write := { kind := .list, members := valueA, ttl := 0, nonempty := nofun }
  let wb : Write := { kind := .list, members := valueB, ttl := 0, nonempty := nofun }
  have h1 : RunOf (fun _ _ => True) {} _ :=
    .tail .refl ⟨.start 0 .go .list (some valueA) 0, trivial, .start (w := wa) rfl rfl⟩
  have h2 := h1.tail ⟨.start 1 .go .list (some valueB) 0, trivial, .start (w := wb) rfl rfl⟩
  have h3 := h2.tail ⟨.serve 0, trivial, .serve (i := 0) rfl rfl⟩
  have h4 := h3.tail ⟨.serve 1, trivial, .serve (i := 1) rfl rfl⟩
  have h5 := h4.tail ⟨.serve 0, trivial, .serve (i := 0) rfl rfl⟩
  have h6 := h5.tail ⟨.serve 1, trivial, .serve (i := 1) rfl rfl⟩
  have h7 := h6.tail ⟨.read .list, trivial, @Step.read _ .list (some (valueA ++ valueB)) ⟨rfl, rfl⟩⟩
  have hread := (hall _ h7).reads _ (List.mem_singleton_self _)
  rcases hread with ⟨h, _⟩ | ⟨w, hw, _, hshows⟩
  · cases h
  · rcases List.mem_pair.mp hw with rfl | rfl
    · cases hshows
    · cases hshows

end Pineapple.RedisWrite
