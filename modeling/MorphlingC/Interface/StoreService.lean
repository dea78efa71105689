import MorphlingC.Interface.ReplySpec
import MorphlingC.Library.Linearizable

/-!
# The service that replicas give to clients

What the replicas are for, with the replication left out: a store of data under keys, and a
queue of the operations that wait.  A read is answered at once, anything else waits in the
queue; from time to time some operations at the front of the queue are done and answered.

Nothing here is translated from the source.
-/

set_option autoImplicit false

namespace MorphlingC.Interface

open MorphlingC.Library MorphlingC.Model

variable {n : ℕ} {κ : Type}

/-- What an operation does to the store, and its answer: a write stores its data, anything else
reads. -/
def execute (store : ℕ → Bytes) (op : Operation) : (ℕ → Bytes) × Bytes :=
  if op.opType = 1 then (Function.update store op.keyHash op.data, [])
  else (store, store op.keyHash)

/-- A store, and the operations that wait, each with the client it is from. -/
structure StoreService (κ : Type) where
  store : ℕ → Bytes := fun _ => []
  queue : List (κ × Operation) := []

/-- A client submits an operation, or so many operations at the front of the queue are done. -/
inductive ServiceEvent (κ : Type) where
  | submit (k : κ) (op : Operation)
  | advance (count : ℕ)

/-- The service, as a machine that emits the answers and whom they are for. -/
def StoreService.step : Machine (StoreService κ) (ServiceEvent κ) (κ × Bytes) Empty
  | s, .submit k op =>
    if op.opType = 0 then .ok (s, [(k, s.store op.keyHash)])
    else .ok ({ s with queue := s.queue ++ [(k, op)] }, [])
  | s, .advance count =>
    let (store, answers) := Atomic.executeAll execute s.store (s.queue.take count)
    .ok ({ store := store, queue := s.queue.drop count }, answers)

/-- What an effect tells a client of its operation. -/
def replyOf : Effect n κ → Option (κ × Bytes)
  | .created _ _ _ => none
  | .queued _ _ => none
  | .answered _ k reply => some (k, reply.replyData)
  | .read k reply => some (k, reply.replyData)
  | .guidance _ _ => none

/-- What the effects at the replicas tell the clients of their operations, in order. -/
def repliesOf (h : List (Fin n × Effect n κ)) : List (κ × Bytes) := h.filterMap fun e => replyOf e.2

@[simp] theorem repliesOf_append (h h' : List (Fin n × Effect n κ)) :
    repliesOf (h ++ h') = repliesOf h ++ repliesOf h' := List.filterMap_append

/-- What the effects at one replica tell the clients. -/
theorem repliesOf_map (r : Fin n) (h : List (Effect n κ)) :
    repliesOf (h.map (r, ·)) = h.filterMap replyOf := List.filterMap_map ..

end MorphlingC.Interface
