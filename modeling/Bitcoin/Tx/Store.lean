import Bitcoin.Tx.Basic
/-! # Sources of earlier transactions

Checking a transaction needs the outputs its inputs spend. A `TxSource` looks a transaction up
by its id and network. A `TxStore` is a source held in memory: transactions stored under their
own ids or under given ones, where a later entry for an id replaces an earlier one, and a lookup
must match the network the transaction was stored with.
-/

namespace Bitcoin

variable [Digests]

/-- A way to look up a transaction by id (display order) on a network. -/
abbrev TxSource := FixedBytes 32 → Network → Outcome Tx

/-- Transactions held in memory, latest entry first. -/
structure TxStore where
  /-- The stored transactions with their ids, latest first. -/
  entries : List (FixedBytes 32 × Tx) := []

namespace TxStore

def insertWithId (s : TxStore) (id : FixedBytes 32) (tx : Tx) : TxStore :=
  ⟨(id, tx) :: s.entries⟩

def insert (s : TxStore) (tx : Tx) : TxStore :=
  s.insertWithId tx.hash tx

/-- Look up the latest transaction stored under an id; it must be on the network asked for. -/
def fetch (s : TxStore) : TxSource := fun id network =>
  match s.entries.find? (fun e => e.1 == id) with
  | none => .error (.provider s!"transaction {Bytes.toHex id.toList} not found")
  | some (_, tx) =>
    if tx.network = network then .ok tx
    else .error (.provider s!"transaction {Bytes.toHex id.toList} is not on {network.title}")

end TxStore

end Bitcoin
