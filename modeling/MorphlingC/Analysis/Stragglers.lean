import MorphlingC.Analysis.GroupRuns
import MorphlingC.Library.Schedules
import Mathlib.Tactic.FinCases

/-!
# Replicas that have missed an entry

An entry is sent to each follower once, when it is appended, and never again: `send_append_entries`
is called from `handle_operation` alone, and an answer that refuses an append is dropped.  So
over a network that loses messages a follower may be left behind for good.  The moment that
happens is known exactly: its log is shorter than the owner's, and no append that continues
it is on the way (`Stranded`).

* A follower can still take another entry exactly when it is not stranded and its vector has
  room (`log_grows_iff`).
* When the replicas that are not stranded below an index are no majority, nothing beyond the
  index is ever committed, whatever else happens (`stranded_stop_commits`).
-/

set_option autoImplicit false

namespace MorphlingC.Analysis

open MorphlingC.Library MorphlingC.Model

variable {n : ℕ}

/-- The log of the replica is behind that of the owner, and no append on the way continues
it. -/
def Stranded (owner : Fin n) (g : Group n) (j : Fin n) : Prop :=
  (g.smr j).log.lastIndex < (g.smr owner).log.lastIndex ∧
    ∀ msg, .append msg j.val ∈ g.network → msg.prevIndex ≠ (g.smr j).log.lastIndex

/-- The replica that has made a call. -/
@[simp] theorem put_smr_self (g : Group n) (i : Fin n) (s : SMR) (cbs : List Callback) :
    (g.put i s cbs).smr i = s := Function.update_self ..

/-- The other replicas. -/
theorem put_smr_of_ne (g : Group n) {i j : Fin n} (hj : j ≠ i) (s : SMR) (cbs : List Callback) :
    (g.put i s cbs).smr j = g.smr j := Function.update_of_ne hj ..

/-- INTERNAL: the messages of callbacks that send no append leave the appends as they are. -/
theorem append_mem_put {g : Group n} {i : Fin n} {s : SMR} {cbs : List Callback}
    (hquiet : ∀ cb ∈ cbs, ∀ msg dst, ¬ Stamped (n := n) i cb (.append msg dst))
    {msg : AppendEntriesMessage} {dst : ℕ}
    (h : .append msg dst ∈ (g.put i s cbs).network) : .append msg dst ∈ g.network := by
  rcases mem_put_network h with hold | ⟨cb, hcb, hstamp⟩
  · exact hold
  · exact absurd hstamp (hquiet cb hcb msg dst)

/-- INTERNAL: **what is stranded stays stranded**, and its log stays as it is.
SOURCE: core/smr.cpp:174-286 -/
theorem Stranded.step {owner : Fin n} {gid : ℕ} {g g' : Group n} {event : GroupEvent}
    {out : List (Fin n × Callback)} {j : Fin n} (hj : Stranded owner g j)
    (h : OneOwner owner gid g.smr (· ∈ g.network))
    (hstep : Group.step owner g event = .ok (g', out)) :
    Stranded owner g' j ∧ (g'.smr j).log.log = (g.smr j).log.log := by
  simp only [Stranded, SMRLog.lastIndex_eq] at hj ⊢
  have hjo : j ≠ owner := by
    rintro rfl
    exact absurd hj.1 (lt_irrefl _)
  cases event with
  | operation msg =>
    obtain ⟨⟨s, cbs, idx⟩, hcall, heq⟩ := bind_eq_ok.mp hstep
    cases heq
    obtain ⟨-, hlog, -, -, -, -, -, hcbs⟩ := handleOperation_ok hcall
    have hsame : ((g.put owner s cbs).smr j).log.log = (g.smr j).log.log := by
      rw [put_smr_of_ne g hjo]
    have hlen : ((g.put owner s cbs).smr owner).log.log.length =
        (g.smr owner).log.log.length + 1 := by
      rw [put_smr_self, hlog, List.length_append, List.length_singleton]
    refine ⟨⟨by rw [hsame, hlen]; omega, fun m hm => ?_⟩, hsame⟩
    rw [hsame]
    rcases mem_put_network hm with hold | ⟨cb, hcb, hstamp⟩
    · exact hj.2 m hold
    · -- the new appends are for the end of the owner's log
      rw [hcbs, List.mem_map] at hcb
      obtain ⟨rid, -, rfl⟩ := hcb
      obtain ⟨epoch, heq⟩ := hstamp
      cases heq
      exact Nat.ne_of_gt hj.1
  | lose k =>
    cases hstep
    exact ⟨⟨hj.1, fun m hm => hj.2 m (List.mem_of_mem_eraseIdx hm)⟩, rfl⟩
  | deliver k =>
    cases hk : g.network[k]? with
    | none =>
      rw [Group.step, hk] at hstep
      cases hstep
      exact ⟨hj, rfl⟩
    | some p =>
      have hmem : p ∈ g.network := List.mem_of_getElem? hk
      cases p with
      | guidance msg dst =>
        rw [Group.step, hk] at hstep
        cases hstep
        exact ⟨hj, rfl⟩
      | append msg dst =>
        have hm := h.appends msg dst hmem
        have hdst := hm.addressee.1
        simp only [Group.step, hk, hdst, dif_pos] at hstep
        obtain ⟨⟨s, cbs⟩, hcall, heq⟩ := bind_eq_ok.mp hstep
        cases heq
        have hio : (⟨dst, hdst⟩ : Fin n) ≠ owner := fun heq =>
          hm.addressee.2 (congrArg Fin.val heq)
        have hquiet : ∀ cb ∈ cbs, ∀ m d, ¬ Stamped (n := n) dst cb (.append m d) := by
          intro cb hcb m d hstamp
          have hreply : ∃ success, cb = appendReply s success msg.fromId := by
            rcases handleAppendEntries_ok.mp hcall with ⟨-, hs, hcbs⟩ | ⟨-, -, -, -, hcbs⟩
            · rw [hcbs, List.mem_singleton] at hcb
              exact ⟨false, by rw [hcb, hs]⟩
            · rw [hcbs, List.mem_singleton] at hcb
              exact ⟨true, hcb⟩
          obtain ⟨success, rfl⟩ := hreply
          obtain ⟨epoch, heq⟩ := hstamp
          cases heq
        have howner : (g.put ⟨dst, hdst⟩ s cbs).smr owner = g.smr owner := by
          rw [put_smr_of_ne g (Ne.symm hio)]
        have hsame : ((g.put ⟨dst, hdst⟩ s cbs).smr j).log.log = (g.smr j).log.log := by
          by_cases hjd : j = ⟨dst, hdst⟩
          · subst hjd
            rw [put_smr_self]
            rcases follower_outcome hm (h.isPrefix _) hcall with ⟨-, hlog⟩ | ⟨hend, -⟩
            · exact hlog
            · exact absurd hend (hj.2 msg hmem)
          · rw [put_smr_of_ne g hjd]
        refine ⟨⟨by rw [hsame, howner]; exact hj.1, fun m hm' => ?_⟩, hsame⟩
        rw [hsame]
        exact hj.2 m (append_mem_put hquiet hm')
      | appendReply msg dst =>
        have hm := h.replies msg dst hmem
        have hdst : dst < n := hm.addressee ▸ owner.isLt
        simp only [Group.step, hk, hdst, dif_pos] at hstep
        obtain ⟨⟨s, cbs⟩, hcall, heq⟩ := bind_eq_ok.mp hstep
        cases heq
        have hio : (⟨dst, hdst⟩ : Fin n) = owner := Fin.ext hm.addressee
        rw [hio] at hcall ⊢
        obtain ⟨s', cbs', -, -, hcall', hsilent, -⟩ := owner_reply h hm
        rw [hcall] at hcall'
        cases hcall'
        have hlog : ((g.put owner s cbs).smr owner).log.log = (g.smr owner).log.log := by
          rw [put_smr_self]
          exact (handleReply_applied hcall).1
        have hsame : (g.put owner s cbs).smr j = g.smr j := by
          rw [put_smr_of_ne g hjo]
        refine ⟨⟨by rw [hsame, hlog]; exact hj.1, fun m hm' => ?_⟩, by rw [hsame]⟩
        rw [hsame]
        exact hj.2 m (append_mem_put (fun cb hcb m d => hsilent cb hcb _) hm')

/-- INTERNAL: **once stranded, a log stays as it is in every continuation.** -/
theorem Stranded.run {owner : Fin n} {gid : ℕ} {g g' : Group n} {events : List GroupEvent}
    {out : List (Fin n × Callback)} {j : Fin n} (hj : Stranded owner g j)
    (h : OneOwner owner gid g.smr (· ∈ g.network))
    (hrun : Machine.run (Group.step owner) g events = .ok (g', out)) :
    (g'.smr j).log.log = (g.smr j).log.log := by
  have hlast := Machine.run_keeps (Group.step owner)
    (I := fun t => OneOwner owner gid t.smr (· ∈ t.network) ∧ Stranded owner t j ∧
      (t.smr j).log.log = (g.smr j).log.log)
    (fun s event s' out hI hstep => by
      obtain ⟨hok, hstr, hsame⟩ := hI
      obtain ⟨hstr', hsame'⟩ := hstr.step hok hstep
      exact ⟨(group_step_keeps hok hstep).1, hstr', hsame'.trans hsame⟩)
    ⟨h, hj, rfl⟩ hrun
  exact hlast.2.2

/-! ## What is not stranded can go on -/

/-- INTERNAL: **an append that continues a log is taken** when it is delivered.
SOURCE: core/smr.cpp:226-250 -/
theorem deliver_grows {owner : Fin n} {gid : ℕ} {g : Group n} {j : Fin n}
    (h : OneOwner owner gid g.smr (· ∈ g.network)) {msg : AppendEntriesMessage}
    (hmem : .append msg j.val ∈ g.network) (hend : msg.prevIndex = (g.smr j).log.log.length) :
    ∃ k g' out, Group.step owner g (.deliver k) = .ok (g', out) ∧
      (g'.smr j).log.log.length = (g.smr j).log.log.length + 1 := by
  obtain ⟨k, hk⟩ := List.mem_iff_getElem?.mp hmem
  have hm := h.appends msg j hmem
  obtain ⟨s, cbs, hcall, -⟩ := h.append hmem
  refine ⟨k, g.put j s cbs, cbs.map (j, ·), ?_, ?_⟩
  · simp only [Group.step, hk, j.isLt, dif_pos, Fin.eta, hcall, ok_bind]
  · rw [put_smr_self]
    rcases follower_outcome hm (h.isPrefix j) hcall with ⟨hno, -⟩ | ⟨-, hgrow, -⟩
    · exact absurd hend hno
    · exact hgrow

/-- INTERNAL: **an operation sends an append to every follower**, for the end of the owner's
log. SOURCE: core/smr.cpp:211-224, 270-281 -/
theorem operation_reaches {owner : Fin n} {gid : ℕ} {g : Group n} {j : Fin n} (hj : j ≠ owner)
    (h : OneOwner owner gid g.smr (· ∈ g.network)) (msg : ClientMessage)
    (room : (g.smr owner).log.log.length < reservedEntries) :
    ∃ g' out, Group.step owner g (.operation msg) = .ok (g', out) ∧ g'.smr j = g.smr j ∧
      ∃ m, .append m j.val ∈ g'.network ∧ m.prevIndex = (g.smr owner).log.log.length := by
  obtain ⟨s, cbs, idx, hcall, -⟩ := h.operation msg room
  obtain ⟨-, -, -, -, -, -, -, hcbs⟩ := handleOperation_ok hcall
  refine ⟨g.put owner s cbs, cbs.map (owner, ·), by simp only [Group.step, hcall, ok_bind],
    put_smr_of_ne g hj s cbs, ?_⟩
  have hpeer : j.val ∈ (g.smr owner).peers.filter (· ≠ (g.smr owner).me) := by
    rw [List.mem_filter, h.peers, h.me, List.mem_range]
    exact ⟨j.isLt, by simpa using fun heq => hj (Fin.ext heq)⟩
  refine ⟨{ appendMessage (g.smr owner) ⟨msg.epoch, idx, msg.op⟩ with fromId := owner },
    List.mem_append_right _ (List.mem_filterMap.mpr
      ⟨.notifySendAppendEntry (appendMessage (g.smr owner) ⟨msg.epoch, idx, msg.op⟩) j, ?_, rfl⟩),
    rfl⟩
  rw [hcbs]
  exact List.mem_map_of_mem hpeer

/-- INTERNAL: what a group reaches is in the invariant. -/
theorem oneOwner_of_run {owner : Fin n} {gid : ℕ} {events : List GroupEvent} {g : Group n}
    {outs : List (Fin n × Callback)}
    (hrun : Machine.run (Group.step owner) (Group.init n gid) events = .ok (g, outs)) :
    OneOwner owner gid g.smr (· ∈ g.network) :=
  Machine.run_keeps (Group.step owner) (I := fun t => OneOwner owner gid t.smr (· ∈ t.network))
    (fun _ _ _ _ hok hstep => (group_step_keeps hok hstep).1) (group_init owner gid) hrun

/-- **Who can still follow.**  In every state that a group reaches while one replica handles all
operations and the network loses, repeats and reorders messages: the log of another replica
can become longer, by some further operations and deliveries, exactly when the replica is not
stranded and its log has fewer than 1000000 entries; and when it is stranded, the log stays as
it is, whatever comes. SOURCE: core/smr.cpp:10, 30-45, 174-286 -/
theorem log_grows_iff (owner : Fin n) (gid : ℕ) (events : List GroupEvent) {g : Group n}
    {outs : List (Fin n × Callback)}
    (hrun : Machine.run (Group.step owner) (Group.init n gid) events = .ok (g, outs))
    {j : Fin n} (hj : j ≠ owner) :
    ((∃ more g' outs', Machine.run (Group.step owner) g more = .ok (g', outs') ∧
        (g.smr j).log.lastIndex < (g'.smr j).log.lastIndex) ↔
      ¬ Stranded owner g j ∧ (g.smr j).log.lastIndex < reservedEntries) ∧
    (Stranded owner g j → ∀ more g' outs',
      Machine.run (Group.step owner) g more = .ok (g', outs') →
        (g'.smr j).log.log = (g.smr j).log.log) := by
  have h := oneOwner_of_run hrun
  refine ⟨⟨?_, fun ⟨hnot, room⟩ => ?_⟩, fun hstr more g' outs' hmore => hstr.run h hmore⟩
  · rintro ⟨more, g', outs', hmore, hgrow⟩
    rw [SMRLog.lastIndex_eq, SMRLog.lastIndex_eq] at hgrow
    refine ⟨fun hstr => ?_, ?_⟩
    · rw [hstr.run h hmore] at hgrow
      exact lt_irrefl _ hgrow
    · rw [SMRLog.lastIndex_eq]
      exact lt_of_lt_of_le hgrow (g'.smr j).log.fits
  · simp only [Stranded, SMRLog.lastIndex_eq] at hnot room ⊢
    rcases Nat.lt_or_ge (g.smr j).log.log.length (g.smr owner).log.log.length with hlt | hge
    · -- an append on the way continues the log
      push Not at hnot
      obtain ⟨msg, hmem, hend⟩ := hnot hlt
      obtain ⟨k, g', out, hstep, hlen⟩ := deliver_grows h hmem hend
      exact ⟨[.deliver k], g', out, Machine.run_singleton _ hstep, by omega⟩
    · -- the log is the owner's, and the next operation continues it
      have hlen : (g.smr j).log.log.length = (g.smr owner).log.log.length :=
        le_antisymm (h.isPrefix j).length_le hge
      obtain ⟨g₁, out₁, hstep₁, hsame, m, hmem, hend⟩ :=
        operation_reaches hj h { epoch := 0, keyHash := 0, op := [] } (hlen ▸ room)
      have hok := (group_step_keeps h hstep₁).1
      obtain ⟨k, g', out, hstep, hlen'⟩ := deliver_grows hok hmem (by rw [hsame, hend, hlen])
      refine ⟨[.operation { epoch := 0, keyHash := 0, op := [] }, .deliver k], g', out₁ ++ out,
        ?_, ?_⟩
      · exact Machine.run_append_ok _ (Machine.run_singleton _ hstep₁)
          (Machine.run_singleton _ hstep)
      · rw [hlen', hsame]
        omega

/-- An operation is sent to replicas 1 and 2, and the message to replica 1 is lost: its log
stays empty. -/
theorem lost_append_strands :
    ∃ (g : Group 3) (outs : List (Fin 3 × Callback)),
      Machine.run (Group.step 0) (Group.init 3 7) [.operation ⟨1, 0, [1]⟩, .lose 0] =
        .ok (g, outs) ∧
      ¬ ∃ more g' outs', Machine.run (Group.step 0) g more = .ok (g', outs') ∧
        (g.smr 1).log.lastIndex < (g'.smr 1).log.lastIndex := by
  refine ⟨_, _, rfl, fun hgrows => ?_⟩
  refine ((log_grows_iff 0 7 [.operation ⟨1, 0, [1]⟩, .lose 0] rfl (by decide)).1.mp hgrows).1
    ⟨by decide, fun msg hmem => ?_⟩
  cases List.mem_singleton.mp hmem

/-- **Too many stranded replicas stop a group.**  In every state that a group reaches in this
way, and for every index: when the replicas that are not stranded at or below the index are
no majority, no replica ever commits beyond the index, whatever operations come and whatever
is delivered. SOURCE: core/smr.cpp:115-141, 174-286 -/
theorem stranded_stop_commits (owner : Fin n) (gid : ℕ) (events : List GroupEvent) {g : Group n}
    {outs : List (Fin n × Callback)}
    (hrun : Machine.run (Group.step owner) (Group.init n gid) events = .ok (g, outs)) {last : ℕ}
    (hfew : ¬ Majority fun i => ¬ (Stranded owner g i ∧ (g.smr i).log.lastIndex ≤ last))
    (more : List GroupEvent) {g' : Group n} {outs' : List (Fin n × Callback)}
    (hmore : Machine.run (Group.step owner) g more = .ok (g', outs')) (i : Fin n) :
    (g'.smr i).log.currCommit ≤ last := by
  have h := oneOwner_of_run hrun
  have h' := oneOwner_of_run (Machine.run_append_ok _ hrun hmore)
  refine (h'.behind i).trans ?_
  by_contra hbeyond
  apply hfew
  refine h'.durable.mono fun k hk hstr => hbeyond ?_
  -- a stranded log is as long as it was
  rw [SMRLog.lastIndex_eq] at hstr
  rw [hstr.1.run h hmore] at hk
  exact hk.trans hstr.2

/-- Both messages of an operation are lost: the next operation is never committed, though it
reaches the other replicas, which refuse it. -/
theorem lost_appends_stop :
    ∃ (g g' : Group 3) (outs outs' : List (Fin 3 × Callback)),
      Machine.run (Group.step 0) (Group.init 3 7) [.operation ⟨1, 0, [1]⟩, .lose 0, .lose 0] =
        .ok (g, outs) ∧
      Machine.run (Group.step 0) g [.operation ⟨1, 0, [2]⟩, .deliver 0, .deliver 1, .deliver 2] =
        .ok (g', outs') ∧
      (g'.smr 0).log.currCommit ≤ 0 := by
  refine ⟨_, _, _, _, rfl, rfl, stranded_stop_commits 0 7
    [.operation ⟨1, 0, [1]⟩, .lose 0, .lose 0] rfl ?_
    [.operation ⟨1, 0, [2]⟩, .deliver 0, .deliver 1, .deliver 2] rfl 0⟩
  refine not_majority_of_unique (by decide) (o := 0) fun i hi => ?_
  by_contra hne
  refine hi ⟨⟨?_, fun msg hmem => absurd hmem List.not_mem_nil⟩, ?_⟩
  · fin_cases i
    · exact absurd rfl hne
    · decide
    · decide
  · fin_cases i
    · exact absurd rfl hne
    · decide
    · decide

end MorphlingC.Analysis
