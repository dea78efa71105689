import MorphlingC.Analysis.OneOwner

/-!
# Every run of a group with one owner

The invariant `OneOwner` holds in every state that a group reaches, because each event of
the group keeps it and returns (`group_step`).  Log matching and durability are read off
it in `one_owner_matches`: the logs are prefixes of the owner's, the commit indices follow
the owner's, and what is committed anywhere is held by a majority.
-/

set_option autoImplicit false

namespace MorphlingC.Analysis

open MorphlingC.Library MorphlingC.Model

variable {n : ℕ}

/-- INTERNAL: the packet of a callback is stamped. SOURCE: core/morphling.cpp:165-184 -/
theorem stamped_of_packet {i : ℕ} {cb : Callback} {p : GenericMessage n}
    (h : cb.packet i = some p) : Stamped i cb p := by
  cases cb with
  | notifySendAppendEntry msg dst =>
    cases h
    exact ⟨msg.epoch, rfl⟩
  | notifySendAppendEntryReply msg dst =>
    cases h
    exact ⟨msg.epoch, rfl⟩
  | notifyApply entries => cases h

/-- INTERNAL: what is in flight after a call was in flight before it, or is the packet of
one of its callbacks. -/
theorem mem_put_network {g : Group n} {i : Fin n} {s : SMR} {cbs : List Callback}
    {p : GenericMessage n} (h : p ∈ (g.put i s cbs).network) :
    p ∈ g.network ∨ ∃ cb ∈ cbs, Stamped i cb p := by
  rcases List.mem_append.mp h with hold | hnew
  · exact .inl hold
  · obtain ⟨cb, hcb, hp⟩ := List.mem_filterMap.mp hnew
    exact .inr ⟨cb, hcb, stamped_of_packet hp⟩

/-- INTERNAL: **each event of a group for which the owner's log has room returns and keeps the
invariant**; only an operation makes the owner's log longer. -/
theorem group_step {owner : Fin n} {gid : ℕ} {g : Group n}
    (h : OneOwner owner gid g.smr (· ∈ g.network)) (event : GroupEvent)
    (room : event.appends = true → (g.smr owner).log.log.length < reservedEntries) :
    ∃ g' outs, Group.step owner g event = .ok (g', outs) ∧
      OneOwner owner gid g'.smr (· ∈ g'.network) ∧
      (g'.smr owner).log.log.length =
        (g.smr owner).log.log.length + if event.appends then 1 else 0 := by
  cases event with
  | operation msg =>
    obtain ⟨s, cbs, idx, hop, hnext⟩ := h.operation msg (room rfl)
    obtain ⟨-, hlog, -⟩ := handleOperation_ok hop
    refine ⟨_, _, by rw [Group.step, hop, ok_bind], hnext _ fun p hp => mem_put_network hp, ?_⟩
    simp [Group.put, hlog, GroupEvent.appends]
  | lose k =>
    exact ⟨_, _, rfl, h.lose fun p hp => List.mem_of_mem_eraseIdx hp, rfl⟩
  | deliver k =>
    cases hk : g.network[k]? with
    | none => exact ⟨g, [], by rw [Group.step, hk], h, rfl⟩
    | some p =>
      have hmem : p ∈ g.network := List.mem_of_getElem? hk
      cases p with
      | guidance msg dst => exact ⟨g, [], by rw [Group.step, hk], h, rfl⟩
      | append msg dst =>
        obtain ⟨hdst, hne⟩ := (h.appends msg dst hmem).addressee
        obtain ⟨s, cbs, hcall, hnext⟩ := h.append (i := ⟨dst, hdst⟩) hmem
        refine ⟨g.put ⟨dst, hdst⟩ s cbs, cbs.map (⟨dst, hdst⟩, ·), ?_,
          hnext _ fun p hp => mem_put_network hp, ?_⟩
        · simp only [Group.step, hk, hdst, dif_pos, hcall, ok_bind]
        · have howner : owner ≠ ⟨dst, hdst⟩ := fun heq => hne (by rw [heq])
          simp only [Group.put, Function.update_of_ne howner]
          rfl
      | appendReply msg dst =>
        have hdst : dst < n := (h.replies msg dst hmem).addressee ▸ owner.isLt
        obtain ⟨hat, s, cbs, hcall, hnext⟩ := h.reply (i := ⟨dst, hdst⟩) hmem
        obtain ⟨hlog, -⟩ := handleReply_applied hcall
        refine ⟨g.put ⟨dst, hdst⟩ s cbs, cbs.map (⟨dst, hdst⟩, ·), ?_,
          hnext _ fun p hp => mem_put_network hp, ?_⟩
        · simp only [Group.step, hk, hdst, dif_pos, hcall, ok_bind]
        · rw [← hat] at *
          simp only [Group.put, Function.update_self, hlog]
          rfl

/-- INTERNAL: an event that makes the owner's log longer has found room.
SOURCE: core/smr.cpp:30-45, 211-213 -/
theorem group_room {owner : Fin n} {g g' : Group n} {event : GroupEvent}
    {outs : List (Fin n × Callback)} (h : Group.step owner g event = .ok (g', outs))
    (happends : event.appends = true) : (g.smr owner).log.log.length < reservedEntries := by
  cases event with
  | operation msg =>
    obtain ⟨⟨s, cbs, idx⟩, hop, -⟩ := bind_eq_ok.mp h
    exact handleOperation_room hop
  | deliver k => cases happends
  | lose k => cases happends

/-- INTERNAL: an event that returns keeps the invariant. -/
theorem group_step_keeps {owner : Fin n} {gid : ℕ} {g g' : Group n} {event : GroupEvent}
    {outs : List (Fin n × Callback)} (h : OneOwner owner gid g.smr (· ∈ g.network))
    (hstep : Group.step owner g event = .ok (g', outs)) :
    OneOwner owner gid g'.smr (· ∈ g'.network) ∧ (g'.smr owner).log.log.length =
      (g.smr owner).log.log.length + if event.appends then 1 else 0 := by
  obtain ⟨g₁, outs₁, hstep₁, hnext⟩ := group_step h event (group_room hstep)
  cases hstep.symm.trans hstep₁
  exact hnext

/-- INTERNAL: what a replica has committed, another has in its log as soon as the log is
that long. -/
theorem OneOwner.take_prefix {o : Fin n} {gid : ℕ} {smr : Fin n → SMR}
    {net : GenericMessage n → Prop} (h : OneOwner o gid smr net) (i : Fin n) {c : ℕ}
    (hc : c ≤ (smr i).log.log.length) :
    (smr o).log.log.take c <+: (smr i).log.log := by
  apply List.prefix_of_prefix_length_le (List.take_prefix _ _) (h.isPrefix i)
  rw [List.length_take]
  omega

/-- INTERNAL: the committed part of every log is a part of the owner's log. -/
theorem OneOwner.committed_eq {o : Fin n} {gid : ℕ} {smr : Fin n → SMR}
    {net : GenericMessage n → Prop} (h : OneOwner o gid smr net) (i : Fin n) :
    (smr i).log.log.take (smr i).log.commits = (smr o).log.log.take (smr i).log.commits := by
  obtain ⟨more, hmore⟩ := h.isPrefix i
  rw [← hmore, List.take_append_of_le_length (h.bounded i)]

/-- INTERNAL: fresh replicas of a group are in the invariant. -/
theorem group_init (owner : Fin n) (gid : ℕ) :
    OneOwner owner gid (Group.init n gid).smr (· ∈ (Group.init n gid).network) :=
  (OneOwner.init owner gid).lose fun _ hp => absurd hp List.not_mem_nil

/-- INTERNAL: a run of a group returns exactly when the owner has room for its operations.
SOURCE: core/smr.cpp:10, 30-45, 211-286 -/
theorem group_returns_iff (owner : Fin n) (gid : ℕ) (events : List GroupEvent) :
    (∃ g outs, Machine.run (Group.step owner) (Group.init n gid) events = .ok (g, outs)) ↔
      events.countP GroupEvent.appends ≤ reservedEntries := by
  have hbudget : (∃ g outs, Machine.run (Group.step owner) (Group.init n gid) events =
      .ok (g, outs)) ↔ _ := Machine.returns_iff_within_budget (Group.step owner)
    (G := fun _ _ => True) (I := fun g => OneOwner owner gid g.smr (· ∈ g.network))
    (L := reservedEntries) (U := fun g (_ : Unit) => (g.smr owner).log.log.length)
    (A := fun _ => GroupEvent.appends) (fun g _ _ => (g.smr owner).log.fits)
    (fun g event g' outs h _ hstep => ⟨(group_step_keeps h hstep).1,
      fun _ => (group_step_keeps h hstep).2⟩)
    (fun g event h _ room => by
      obtain ⟨g', outs, hstep, -⟩ := group_step h event (room ())
      exact ⟨g', outs, hstep⟩)
    (group_init owner gid)
    (Machine.guarded_of_forall _ (G := fun _ _ => True) (fun _ _ _ => trivial) _)
  rw [hbudget]
  have hempty : ((Group.init n gid).smr owner).log.log.length = 0 := rfl
  constructor
  · intro h
    have hall := h ()
    rwa [hempty, Nat.zero_add] at hall
  · intro h _
    rwa [hempty, Nat.zero_add]

/-- **Log matching and durability under one owner.**  A run of the replicas of a group, of which
one handles all operations while the network loses, repeats and reorders messages, returns
exactly when it has at most 1000000 operations.  In every state that such a run reaches: every
log is a prefix of the owner's; every commit index is at most the owner's and within its own
log; a majority of the logs contain the owner's log up to its commit index; the committed parts
of any two logs are comparable; and every committed entry is in the logs of a majority.
SOURCE: core/smr.cpp:10, 30-45, 115-141, 174-286 -/
theorem one_owner_matches (owner : Fin n) (gid : ℕ) (events : List GroupEvent) :
    ((∃ g outs, Machine.run (Group.step owner) (Group.init n gid) events = .ok (g, outs)) ↔
        events.countP GroupEvent.appends ≤ reservedEntries) ∧
    ∀ g outs, Machine.run (Group.step owner) (Group.init n gid) events = .ok (g, outs) →
      (∀ i, (g.smr i).log.log <+: (g.smr owner).log.log) ∧
      (∀ i, (g.smr i).log.currCommit ≤ (g.smr owner).log.currCommit ∧
        (g.smr i).log.currCommit ≤ (g.smr i).log.lastIndex) ∧
      (Majority fun i =>
        (g.smr owner).log.log.take (g.smr owner).log.currCommit <+: (g.smr i).log.log) ∧
      (∀ i j,
        (g.smr i).log.log.take (g.smr i).log.currCommit <+:
            (g.smr j).log.log.take (g.smr j).log.currCommit ∨
          (g.smr j).log.log.take (g.smr j).log.currCommit <+:
            (g.smr i).log.log.take (g.smr i).log.currCommit) ∧
      (∀ i, ∀ k < (g.smr i).log.currCommit, Majority fun j =>
        ∃ e, (g.smr i).log.log[k]? = some e ∧ (g.smr j).log.log[k]? = some e) := by
  refine ⟨group_returns_iff owner gid events, fun g outs hrun => ?_⟩
  have h := Machine.run_keeps (Group.step owner)
    (I := fun g => OneOwner owner gid g.smr (· ∈ g.network))
    (fun g event g' outs h hstep => (group_step_keeps h hstep).1) (group_init owner gid) hrun
  have hdurable : Majority fun i =>
      (g.smr owner).log.log.take (g.smr owner).log.commits <+: (g.smr i).log.log :=
    h.durable.mono fun i hi => h.take_prefix i hi
  refine ⟨h.isPrefix, fun i => ⟨h.behind i, ?_⟩, hdurable, fun i j => ?_,
    fun i k hk => ?_⟩
  · rw [SMRLog.lastIndex_eq]
    exact h.bounded i
  · dsimp only [SMRLog.currCommit]
    rw [h.committed_eq i, h.committed_eq j]
    exact List.prefix_or_prefix_of_prefix (List.take_prefix _ _) (List.take_prefix _ _)
  · have hlt : k < (g.smr i).log.log.length := lt_of_lt_of_le hk (h.bounded i)
    obtain ⟨more, hmore⟩ := h.isPrefix i
    have howner : (g.smr owner).log.log[k]? = some (g.smr i).log.log[k] := by
      rw [← hmore, List.getElem?_append_left hlt, List.getElem?_eq_getElem hlt]
    have hcommitted : k < (g.smr owner).log.commits := lt_of_lt_of_le hk (h.behind i)
    refine hdurable.mono fun j hj => ⟨_, List.getElem?_eq_getElem hlt, ?_⟩
    obtain ⟨more', hmore'⟩ := hj
    have hlen : k < ((g.smr owner).log.log.take (g.smr owner).log.commits).length := by
      rw [List.length_take]
      exact lt_min hcommitted (List.getElem?_eq_some_iff.mp howner).1
    rw [← hmore', List.getElem?_append_left hlen, List.getElem?_take, if_pos hcommitted, howner]

end MorphlingC.Analysis
