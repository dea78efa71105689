import MorphlingC.Model.Log
import MorphlingC.Model.Vote

/-!
# One replicated group at one replica

`SMR` of `core/smr.h`: the log of a group, the votes for its entries, and the three
handlers.  There is no role: a replica leads a group for as long as clients send it
operations for that group, and follows it otherwise.

The handlers report through callbacks.  A handler here returns the new state together
with the callbacks it made, in order; what the owner of the group does with them is in
`MorphlingC.Model.Replica`.
-/

set_option autoImplicit false

namespace MorphlingC.Model

open MorphlingC.Library

/-- One call of `m_cb`. SOURCE: core/smr.h:96-100 -/
inductive Callback where
  | notifySendAppendEntry (msg : AppendEntriesMessage) (dst : ℕ)
  | notifySendAppendEntryReply (msg : AppenEntriesReplyMessage) (dst : ℕ)
  | notifyApply (entries : List Entry)
deriving DecidableEq, Repr

/-- SOURCE: core/smr.h:102-105 -/
structure PeerStatus where
  matched : ℕ := 0
  next : ℕ := 0
deriving DecidableEq, Repr

/-- SOURCE: core/smr.h:107-114 -/
structure SMR where
  log : SMRLog
  gid : ℕ
  me : ℕ
  peers : List ℕ
  entryVotes : EntryVoteRecord
  prs : ℕ → PeerStatus

namespace SMR

/-- The constructor with `init` and `set_gid`. SOURCE: core/smr.cpp:145-172 -/
def new (me : ℕ) (peers : List ℕ) (gid : ℕ) : SMR where
  log := {}
  gid := gid
  me := me
  peers := peers
  entryVotes := EntryVoteRecord.init peers.length
  prs := fun _ => {}

/-- Whether the message continues from an entry of the log, and if so, whether that entry
is before the last one: `(is_safe, is_stale)`. SOURCE: core/smr.cpp:174-192 -/
def checkSafety (s : SMR) (prevTerm prevIndex : ℕ) : Except Fault (Bool × Bool) := do
  let lastEntry := s.log.lastEntry
  if prevIndex < lastEntry.index then
    let te ← s.log.entryAt prevIndex
    if prevTerm ≠ te.epoch then .ok (false, false) else .ok (true, true)
  else if prevIndex = lastEntry.index then
    if prevTerm ≠ lastEntry.epoch then .ok (false, false) else .ok (true, false)
  else .ok (false, false)

/-- The outer loop of `handle_stale_entries`: the first entry of the message that is past
the last index or differs in epoch from the log's entry, and how many entries of the
message are left from it on. SOURCE: core/smr.cpp:195-200 -/
def staleConflict (log : SMRLog) (lastIndex : ℕ) :
    List Entry → Except Fault (Option (Entry × ℕ))
  | [] => .ok none
  | item :: rest => do
    let e ← log.entryAt item.index
    if item.index > lastIndex ∨ e.epoch ≠ item.epoch then
      .ok (some (item, rest.length + 1))
    else staleConflict log lastIndex rest

/-- The entries are appended one by one, each under its own epoch.
SOURCE: core/smr.cpp:236-238 -/
def appendAll : SMRLog → List Entry → Except Fault SMRLog
  | log, [] => .ok log
  | log, e :: rest => do
    let (log, _) ← log.append e
    appendAll log rest

/-- At the first conflict the log is truncated there.  The inner loop then advances the
iterator of the outer one, but what it appends each time is the reference `e` taken before
it, to the conflicting entry. SOURCE: core/smr.cpp:194-209 -/
def handleStaleEntries (log : SMRLog) (msg : AppendEntriesMessage) : Except Fault SMRLog := do
  match ← staleConflict log log.lastIndex msg.entries with
  | none => .ok log
  | some (e, count) =>
    let log ← log.truncate e.index
    appendAll log (List.replicate count e)

/-- The entries of a safe message are taken over: stale ones are compared with the log,
others are appended. SOURCE: core/smr.cpp:233-239 -/
def acceptEntries (log : SMRLog) (stale : Bool) (msg : AppendEntriesMessage) :
    Except Fault SMRLog :=
  if stale then handleStaleEntries log msg else appendAll log msg.entries

/-- The commit index follows the one in the message, as far as the log goes.
SOURCE: core/smr.cpp:240-244 -/
def passiveCommit (log : SMRLog) (commit : ℕ) : Except Fault SMRLog :=
  if commit > log.currCommit then do
    let newCommit := min commit log.lastIndex
    let (log, _) ← log.commitTo newCommit
    .ok log
  else .ok log

/-- The message to a peer that starts at its `next` index. SOURCE: core/smr.cpp:270-281 -/
def sendAppendEntries (s : SMR) (dst : ℕ) : Except Fault Callback := do
  if (s.prs dst).next = 0 then .error .nextWraps
  else
    let prevIdx := (s.prs dst).next - 1
    let prev ← s.log.entryAt prevIdx
    let entries ← s.log.getTailEntries (s.prs dst).next
    .ok (.notifySendAppendEntry
      { prevTerm := prev.epoch
        prevIndex := prevIdx
        commit := s.log.currCommit
        groupId := s.gid
        entries := entries } dst)

/-- SOURCE: core/smr.cpp:283-286 -/
def sendAppendEntriesReply (s : SMR) (reply : AppenEntriesReplyMessage) (dst : ℕ) : Callback :=
  .notifySendAppendEntryReply { reply with groupId := s.gid } dst

/-- The loop over the peers in `handle_operation`. SOURCE: core/smr.cpp:217-222 -/
def sendToPeers (lastIdx : ℕ) : List ℕ → SMR → Except Fault (SMR × List Callback)
  | [], s => .ok (s, [])
  | rid :: rest, s =>
    if rid = s.me then sendToPeers lastIdx rest s
    else do
      let s := { s with
        prs := Function.update s.prs rid { s.prs rid with next := lastIdx } }
      let cb ← s.sendAppendEntries rid
      let (s, cbs) ← sendToPeers lastIdx rest s
      .ok (s, cb :: cbs)

/-- Append a client's operation, vote for it, and send it to the other peers.  What the
vote answers is not used.  The new index is returned. SOURCE: core/smr.cpp:211-224 -/
def handleOperation (s : SMR) (msg : ClientMessage) :
    Except Fault (SMR × List Callback × ℕ) := do
  let (log, lastIdx) ← s.log.append { data := msg.op } msg.epoch
  let (entryVotes, _) ← s.entryVotes.vote s.me lastIdx
  let s := { s with
    log := log
    entryVotes := entryVotes
    prs := Function.update s.prs s.me { matched := lastIdx, next := lastIdx + 1 } }
  let (s, cbs) ← sendToPeers lastIdx s.peers s
  .ok (s, cbs, lastIdx)

/-- SOURCE: core/smr.cpp:226-250 -/
def handleAppendEntries (s : SMR) (msg : AppendEntriesMessage) (sender : ℕ) :
    Except Fault (SMR × List Callback) := do
  let (safe, stale) ← s.checkSafety msg.prevTerm msg.prevIndex
  if !safe then
    .ok (s, [s.sendAppendEntriesReply { success := false, index := s.log.lastIndex } sender])
  else
    let log ← acceptEntries s.log stale msg
    let log ← passiveCommit log msg.commit
    let s := { s with log := log }
    .ok (s, [s.sendAppendEntriesReply { success := true, index := s.log.lastIndex } sender])

/-- SOURCE: core/smr.cpp:252-268 -/
def handleAppendEntriesReply (s : SMR) (msg : AppenEntriesReplyMessage) (sender : ℕ) :
    Except Fault (SMR × List Callback) := do
  if !msg.success then .ok (s, [])
  else
    let (entryVotes, reached) ← s.entryVotes.vote sender msg.index
    let s := { s with entryVotes := entryVotes }
    if reached then
      let oldCommit := s.log.currCommit
      let (log, ok) ← s.log.commitTo msg.index
      let s := { s with log := log }
      if ok then
        let applyEntries ← s.log.getPartEntries (oldCommit + 1) msg.index
        .ok (s, [.notifyApply applyEntries])
      else .ok (s, [])
    else .ok (s, [])

end SMR

/-! ## Runs of one group at one replica -/

/-- A call of one of the three handlers. -/
inductive SMRCall where
  | operation (msg : ClientMessage)
  | append (msg : AppendEntriesMessage) (sender : ℕ)
  | reply (msg : AppenEntriesReplyMessage) (sender : ℕ)
deriving DecidableEq, Repr

/-- One call of a handler, as a machine that emits its callbacks. -/
def SMR.call : Machine SMR SMRCall Callback Fault
  | s, .operation msg => do
    let (s, cbs, _) ← s.handleOperation msg
    .ok (s, cbs)
  | s, .append msg sender => s.handleAppendEntries msg sender
  | s, .reply msg sender => s.handleAppendEntriesReply msg sender

/-- A call of `handle_operation` as a call of a machine, without the index it returns. -/
theorem SMR.call_operation_ok {s s' : SMR} {msg : ClientMessage} {cbs : List Callback} :
    SMR.call s (.operation msg) = .ok (s', cbs) ↔
      ∃ idx, s.handleOperation msg = .ok (s', cbs, idx) := by
  unfold SMR.call
  rw [bind_eq_ok]
  constructor
  · rintro ⟨⟨s₁, cbs₁, idx⟩, hop, heq⟩
    cases heq
    exact ⟨idx, hop⟩
  · rintro ⟨idx, hop⟩
    exact ⟨_, hop, rfl⟩

/-- The entries of one callback that are handed to the state machine. -/
def Callback.applied : Callback → List Entry
  | .notifySendAppendEntry _ _ => []
  | .notifySendAppendEntryReply _ _ => []
  | .notifyApply entries => entries

/-- All entries handed to the state machine so far, in order. -/
def appliedEntries (cbs : List Callback) : List Entry := cbs.flatMap Callback.applied

@[simp] theorem appliedEntries_append (xs ys : List Callback) :
    appliedEntries (xs ++ ys) = appliedEntries xs ++ appliedEntries ys := by
  simp [appliedEntries]

end MorphlingC.Model
