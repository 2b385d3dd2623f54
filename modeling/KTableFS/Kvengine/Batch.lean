/-
# Kvengine.Batch -- requests, batches, and what finishing one does

A `Batch` is a client's queue of `Request`s.  The workers take requests off its
front; `finishRequest` answers the client when none is left and otherwise hands
the batch back to the `DB` (`Effect.submit`).

A scan callback is client code with state of its own.  It is modelled by the
answer it gives after the calls made so far (`delivered`, the last one being the
current call), which covers every deterministic callback, whatever it remembers.

`delete this` ends the life of the C++ object; the model keeps the value, so a
`finishRequest` on a batch that has already answered is visible as a second
answer.
-/
import KTableFS.Kvengine.Slice

namespace KTableFS.Kvengine

set_option autoImplicit false

/-- `-ENOENT` and `-EEXIST`. -/
def enoent : Int := -2

@[inherit_doc enoent]
def eexist : Int := -17

/-- The answer of a scan callback after the calls in the list, the last of them
being the one it answers. -/
abbrev ScanCallback := List (Slice × Slice) → Bool

/-- `Batch::Request`.  `scan`'s `worker` is the `key` pointer of the source: null
(0) until `DB::Submit` has expanded the request over the workers. -/
inductive Request where
  | get (key : Slice)
  | put (key value : Slice)
  | update (key value : Slice)
  | delete (key : Slice)
  | scan (minKey maxKey : Slice) (scanCallback : ScanCallback) (worker : Nat)

/-- A scan's callback never stops it. -/
def Request.Unstopped : Request → Prop
  | .scan _ _ callback _ => ∀ delivered, callback delivered = true
  | _ => True

structure Batch where
  /-- The object's address: its identity. -/
  id : Nat
  requests : List Request
  /-- The pairs passed to this batch's scan callbacks so far. -/
  delivered : List (Slice × Slice)

/-- What a worker does to the outside world while it serves a batch. -/
inductive Effect where
  /-- `callback_(new Respond(data, res))`. -/
  | respond (batch : Nat) (data : Option Slice) (res : Int)
  /-- `db_->Submit(this, false)`. -/
  | submit (batch : Batch)
  /-- `scan_callback(key, value)`, with its answer. -/
  | scanned (batch : Nat) (key value : Slice) (answer : Bool)

/-- `Batch::FinishRequest`. -/
def Batch.finishRequest (batch : Batch) (data : Option Slice) (res : Int) : Effect :=
  if batch.requests.isEmpty then .respond batch.id data res else .submit batch

end KTableFS.Kvengine
