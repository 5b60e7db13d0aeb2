import MetaEditor.DAO.DatabaseManager

/-!
# The connection of the manager

`connect` writes `m_client` before it knows whether it has got a client, and before the ping that can fail, and
the address after them. Every function of the manager decides by `m_client` alone whether to reconnect, at an
address that is not set before some `connect` has succeeded. A `Connection` is the manager with the client that
`m_client` points to, told apart from every other one that `mongoc_client_new` made.
-/

namespace MetaEditor

open Lib

/-- The members of `DatabaseManager`. Clients are numbered; `none` is the null pointer, or a member that
was never written. -/
structure Connection where
  mClient : Option Nat
  mIp : Option Bytes
  mPort : Option UInt16
  deriving DecidableEq, Repr

namespace Connection

/-- The constructor sets `m_client` alone. -/
def new : Connection := { mClient := none, mIp := none, mPort := none }

/-- `client` is the one that `mongoc_client_new` makes, if it makes one. -/
def connect (client : Nat) (d : Driver) (ip : Option Bytes) (port : Option UInt16) (s : Connection) :
    Except DatabaseException Unit × Connection :=
  let s := { s with mClient := if d.client = true then some client else none }
  if d.client = false then (.error DatabaseManager.noClient, s)
  else if d.ping = false then (.error ⟨d.message⟩, s)
  else (.ok (), { s with mIp := ip, mPort := port })

def tryReconnection (client : Nat) (d : Driver) (s : Connection) : Except DatabaseException Unit × Connection :=
  s.connect client d s.mIp s.mPort

/-- `if(m_client == nullptr) tryReconnection();`, with which every operation begins. -/
def guard (client : Nat) (d : Driver) (s : Connection) : Except DatabaseException Unit × Connection :=
  if s.mClient = none then s.tryReconnection client d else (.ok (), s)

/-! ### The manager without the identity of its client -/

def manager (s : Connection) : DatabaseManager :=
  { mClient := s.mClient.isSome, mIp := s.mIp, mPort := s.mPort }

theorem manager_connect (client : Nat) (d : Driver) (ip : Option Bytes) (port : Option UInt16) (s : Connection) :
    s.manager.connect d ip port = ((s.connect client d ip port).1, (s.connect client d ip port).2.manager) := by
  unfold DatabaseManager.connect connect
  cases d.client with
  | false => rfl
  | true =>
    simp only [Bool.true_eq_false, if_false, if_true]
    split_ifs <;> rfl

/-- `create`, `destroy`, `update`, `read` and `findAll` are all of the form `withClient`. -/
theorem manager_guard {α : Type} (client : Nat) (d : Driver) (rest : α) (s : Connection) :
    s.manager.withClient d rest = ((s.guard client d).1.map fun _ => rest, (s.guard client d).2.manager) := by
  unfold DatabaseManager.withClient DatabaseManager.tryReconnection guard tryReconnection
  cases hc : s.mClient with
  | none =>
    have hnull : s.manager.mClient = false := by rw [manager, hc]; rfl
    rw [if_pos hnull, if_pos rfl, manager_connect client]
    rfl
  | some old =>
    have hset : s.manager.mClient = true := by rw [manager, hc]; rfl
    rw [if_neg (by simp [hset]), if_neg nofun]
    rfl

end Connection

/-! ### Runs -/

/-- A call of `connect`, or of a function that begins with the guard. -/
inductive ConnectionEvent
  | connect (client : Nat) (d : Driver) (ip : Bytes) (port : UInt16)
  | operation (client : Nat) (d : Driver)
  deriving DecidableEq, Repr

/-- The connection, and the address of the last `connect` that succeeded. -/
structure Tracked where
  connection : Connection
  last : Option (Option Bytes × Option UInt16)
  deriving DecidableEq, Repr

namespace Tracked

open ConnectionEvent

def start : Tracked := { connection := .new, last := none }

/-- The result of the call. -/
def call (s : Tracked) : ConnectionEvent → Except DatabaseException Unit × Connection
  | connect client d ip port => s.connection.connect client d (some ip) (some port)
  | operation client d => s.connection.guard client d

/-- The address the call connects to, if it connects. -/
def target (s : Tracked) : ConnectionEvent → Option (Option Bytes × Option UInt16)
  | connect _ _ ip port => some (some ip, some port)
  | operation _ _ => if s.connection.mClient = none then some (s.connection.mIp, s.connection.mPort) else none

def step (s : Tracked) (e : ConnectionEvent) : Tracked :=
  { connection := (s.call e).2
    last := match (s.call e).1 with
      | .ok _ => (s.target e).or s.last
      | .error _ => s.last }

/-- The client that the call makes if it makes one. -/
def client : ConnectionEvent → Nat
  | connect client _ _ _ | operation client _ => client

variable {s : Tracked}

end Tracked

end MetaEditor
