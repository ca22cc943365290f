import PoolStudy.ChatPool.Model

/-! # The chat server: data and steps

`main` of `server_epoll_pthread_pool.c` accepts clients, receives their messages and keeps the last message of
every client in a table; for every message it adds an item to the pool, whose function `myprocess` reads the
descriptor of the sender through its argument, looks the text up in the table and sends it to all other
entries. The server is a code that uses the pool (`server`): `main` is the only other thread, and the memory of
the code is the table, the counters of `main` and its variable `sockfd`, the one the items point to.

What the kernel does is an input: which descriptor is ready, and what `epoll_wait`, `accept` and `recv` return.
Descriptors that are ready are open, and `accept` succeeds and returns one that is not. Every statement that
reads or writes what both sides use (`sockfd`, the descriptors and the texts in the table) is a step. The loops
over the table run from `1` to `MAX_EVENT_NUMBER - 1`, where `client_count` is not in scope. The table is a
function on all indices: an entry behind the array is one whose index is not below `MAX_EVENT_NUMBER`.
`chatRecord` holds bytes, of which `strcpy` reads those before the first zero.

`Server` also keeps the history: for every open descriptor the entry it was put into, the entries of the clients
that left, the events that enqueued items, and what every finished `myprocess` has sent, to whom and under which
descriptor. -/

namespace PoolStudy.ChatServer.Model

open PoolStudy.Lib.Transition PoolStudy.Lib.Threads PoolStudy.ChatPool.Model

/-! ### Data -/

/-- `BUFFER_SIZE`. -/
def bufferSize : ℕ := 100

/-- `MAX_EVENT_NUMBER`. -/
def maxEventNumber : ℕ := 1024

/-- `THREAD_NUM`. -/
abbrev threadNum : ℕ := 5

/-- Bytes, as `recv` delivers them. -/
abbrev Bytes := List UInt8

/-- **`strcpy`**: the bytes before the first zero. -/
def strcpy (src : Bytes) : Bytes := src.takeWhile (· ≠ 0)

/-- `CLIENT_DATA`. -/
structure Client where
  sockfd : ℤ
  mark : ℤ
  chatRecord : Bytes

/-- The event that enqueued an item: the sender, its text, and the number of entries in use. -/
structure Event where
  sockfd : ℤ
  text : Bytes
  clients : ℕ
  deriving DecidableEq

/-- What a run of `myprocess` has sent, and to which descriptors. -/
structure Broadcast where
  sockfd : ℤ
  text : Bytes
  sentTo : List ℤ
  deriving DecidableEq

/-- The table, the variables of `main`, and the history. -/
structure Server where
  client : ℕ → Client
  clientCount : ℕ
  userCount : ℤ
  sockfd : ℤ
  listenfd : ℤ
  rows : ℤ → Option ℕ
  gone : List ℕ
  received : List Event
  broadcasts : List Broadcast

/-- What the kernel returns: `epoll_wait` fails or reports a descriptor, `accept` returns a descriptor; `recv`
delivers bytes, or says that the client has left, or fails, for good or for now; or the descriptor is not
readable. -/
inductive Kernel
  | failure
  | ready (fd : ℤ)
  | accepted (connfd : ℤ)
  | received (buf : Bytes)
  | left
  | error
  | again
  | notReadable
  deriving DecidableEq

/-- Where `main` is in its loop, and an item in `myprocess`. -/
inductive Pos
  | poll
  | dispatch
  | fill
  | leave
  | record (buf : Bytes) (i : ℕ)
  | exit
  | start
  | search (sockfd : ℤ) (j : ℕ)
  | copy (sockfd : ℤ) (j : ℕ)
  | send (sockfd : ℤ) (buf : Bytes) (j : ℕ) (sentTo : List ℤ)
  | sendTo (sockfd : ℤ) (buf : Bytes) (j : ℕ) (sentTo : List ℤ)
  deriving DecidableEq

/-! ### `main` -/

/-- The entry `i` changed. -/
def Server.setClient (m : Server) (i : ℕ) (f : Client → Client) : Server :=
  { m with client := Function.update m.client i (f (m.client i)) }

/-- A new client: the counters and the descriptor in the next entry. -/
def Server.accept (m : Server) (connfd : ℤ) : Server :=
  let m := { m with
    clientCount := m.clientCount + 1
    userCount := m.userCount + 1
    rows := Function.update m.rows connfd (some (m.clientCount + 1)) }
  m.setClient m.clientCount fun e => { e with sockfd := connfd }

/-- The rest of the new entry. -/
def Server.fill (m : Server) : Server :=
  m.setClient m.clientCount fun e => { e with mark := 1, chatRecord := [] }

/-- **A client leaves**, or its `recv` fails: the entry `client_count`, `user_count`, and the descriptor. -/
def Server.leave (m : Server) : Server :=
  { m.setClient m.clientCount (fun e => { e with mark := -1, chatRecord := [] }) with
    userCount := m.userCount - 1
    rows := Function.update m.rows m.sockfd none
    gone := m.gone ++ (m.rows m.sockfd).toList }

/-- The text of a message in the entry `i`, if it is one of the sender's. -/
def Server.record (m : Server) (buf : Bytes) (i : ℕ) : Server :=
  if (m.client i).sockfd = m.sockfd then m.setClient i fun e => { e with chatRecord := strcpy buf } else m

/-- The event of the message `buf`. -/
def Server.event (m : Server) (buf : Bytes) : Event := ⟨m.sockfd, strcpy buf, m.clientCount⟩

/-- **`main`**: the loop over the events. -/
def mainStep (x : Option Kernel) (m : Server) : Pos → Option (Server × Act Pos Event)
  | .poll =>
    match x with
    | some .failure => some (m, .destroy .exit .exit)
    | some (.ready fd) =>
      if fd = m.listenfd ∨ (m.rows fd).isSome then some ({ m with sockfd := fd }, .goto .dispatch) else none
    | _ => none
  | .dispatch =>
    match x with
    | some (.accepted connfd) =>
      if m.sockfd = m.listenfd ∧ connfd ≠ m.listenfd ∧ m.rows connfd = none then
        some (m.accept connfd, .goto .fill)
      else none
    | some (.received buf) =>
      if m.sockfd ≠ m.listenfd ∧ buf ≠ [] ∧ buf.length < bufferSize then some (m, .goto (.record buf 1))
      else none
    | some .left | some .error => if m.sockfd ≠ m.listenfd then some (m, .goto .leave) else none
    | some .again | some .notReadable => if m.sockfd ≠ m.listenfd then some (m, .goto .poll) else none
    | _ => none
  | .fill => some (m.fill, .goto .poll)
  | .leave => some (m.leave, .goto .poll)
  | .record buf i =>
    if i ≤ m.clientCount then some (m.record buf i, .goto (.record buf (i + 1)))
    else some ({ m with received := m.received ++ [m.event buf] }, .add (m.event buf) .poll)
  | _ => none

/-! ### `myprocess` -/

/-- **`myprocess`**: the argument read, the search in the table, the text copied, and the loop of the sends. -/
def processStep (m : Server) : Pos → Option (Server × Act Pos Event)
  | .start => some (m, .goto (.search m.sockfd 1))
  | .search sockfd j =>
    if j < maxEventNumber then
      some (m, .goto (if (m.client j).sockfd = sockfd then .copy sockfd j else .search sockfd (j + 1)))
    else some (m, .goto (.send sockfd [] 1 []))
  | .copy sockfd j => some (m, .goto (.send sockfd (strcpy (m.client j).chatRecord) 1 []))
  | .send sockfd buf j sentTo =>
    if j < maxEventNumber then
      some (m, .goto (if (m.client j).sockfd = sockfd then .send sockfd buf (j + 1) sentTo
        else .sendTo sockfd buf j sentTo))
    else some ({ m with broadcasts := m.broadcasts ++ [⟨sockfd, buf, sentTo⟩] }, .ret)
  | .sendTo sockfd buf j sentTo => some (m, .goto (.send sockfd buf (j + 1) (sentTo ++ [(m.client j).sockfd])))
  | _ => none

/-! ### The server -/

/-- **The server as a code that uses the pool.** Every item is `myprocess` with the address of `sockfd`; the
event is there for the history only. -/
def server : Code threadNum Unit Server Pos Event (Option Kernel) where
  init m := m.clientCount = 0 ∧ m.userCount = 0 ∧ m.rows = (fun _ => none) ∧ m.gone = [] ∧ m.received = [] ∧
    m.broadcasts = []
  main _ := .poll
  process _ := .start
  step
    | .inl _, _, m, l => processStep m l
    | .inr _, x, m, l => mainStep x m l

/-- A configuration of the server. -/
abbrev ServerState := State threadNum Unit Server Pos Event

/-- A step of the server: a thread and what the kernel returns. -/
abbrev ServerAction := Tid threadNum Unit × Input threadNum (Option Kernel)

/-- **`main` and the workers of its pool.** -/
def chatServer : Lts ServerState ServerAction := (chatPool server).lts

/-! ### Runs given as lists -/

/-- A step of `main` with what the kernel returns. -/
def kernel (x : Kernel) : ServerAction := (.inr (), { ext := some x })

/-- A step of `main` that does not ask the kernel. -/
def goesOn : ServerAction := (.inr (), { ext := none })

/-- The clients `5` and `6` are accepted. -/
def twoClients : List ServerAction :=
  [kernel (.ready 3), kernel (.accepted 5), goesOn, kernel (.ready 3), kernel (.accepted 6), goesOn]

/-- The server at its start. -/
def startServer : Server where
  client := fun _ => ⟨0, 0, []⟩
  clientCount := 0
  userCount := 0
  sockfd := 0
  listenfd := 3
  rows := fun _ => none
  gone := []
  received := []
  broadcasts := []

/-- The configuration at the start. -/
def startState : ServerState :=
  ⟨poolInit threadNum Unit startServer fun _ => ⟨⟨0, [], 0⟩, none⟩, fun _ => .lock, fun _ => .code .poll⟩

theorem startState_init : chatServer.init startState :=
  ⟨startServer, _, ⟨rfl, rfl, rfl, rfl, rfl, rfl⟩, rfl⟩

end PoolStudy.ChatServer.Model
