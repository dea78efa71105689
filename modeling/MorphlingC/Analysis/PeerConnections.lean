import MorphlingC.Model.Connect

/-!
# Two replicas settle on one connection

Each side keeps two flags for the other.  A side that is told that its own connection is
established takes it and says so on it; a side that hears this on an accepted connection
takes that one and frees its own, unless it has taken its own already, in which case it
frees the accepted one.  When both sides are told before either hears of the other, each
frees the connection that the other has taken, and no connection is left open: the EOF that
follows is ignored.

For every order of the events, once nothing is pending and TCP has established both
connections, the two transports are the ends of one open connection exactly when no side was
told after the other.
-/

set_option autoImplicit false

namespace MorphlingC.Analysis

open MorphlingC.Library MorphlingC.Model MorphlingC.Model.Pair

/-! ## What is meant to come out -/

/-- A connection is open, and the two transports are its ends. -/
def Settled (p : Pair) : Prop :=
  ∃ s, (p.conn s).established = true ∧ (p.conn s).outgoing = .opened ∧
    (p.conn s).incoming = .opened ∧ p.peerTrans s = some ⟨s, .outgoing⟩ ∧
    p.peerTrans s.other = some ⟨s, .incoming⟩

/-- No event is pending. -/
def Quiescent (p : Pair) : Prop := ∀ e, ¬ p.Pending e

/-- A side that is told that its connection is established is told so before the other side
has taken its own. -/
def ToldFirst (p : Pair) : ConnectEvent → Prop
  | .connected s => (p.peerCtx s.other).proactiveConnected = false
  | .established _ => True
  | .accepted _ => True
  | .initMsg _ => True
  | .incomingEof _ => True
  | .outgoingEof _ => True

instance (p : Pair) : DecidablePred (ToldFirst p)
  | .connected _ => inferInstanceAs (Decidable (_ = _))
  | .established _ => isTrue trivial
  | .accepted _ => isTrue trivial
  | .initMsg _ => isTrue trivial
  | .incomingEof _ => isTrue trivial
  | .outgoingEof _ => isTrue trivial

/-! ## The invariant -/

/-- What holds at one side at any time, about its context and the connection that it has
opened. -/
structure SideSound (p : Pair) (s : Side) : Prop where
  told : (p.conn s).reported = (p.peerCtx s).proactiveConnected
  sent : (p.peerCtx s).proactiveConnected = false ↔ (p.conn s).init = .unsent
  proactive : (p.peerCtx s).proactiveConnected = true →
    (p.peerCtx s).passiveConnected = false ∧ p.peerTrans s = some ⟨s, .outgoing⟩
  passive : (p.peerCtx s).passiveConnected = true →
    p.peerTrans s = some ⟨s.other, .incoming⟩ ∧ (p.conn s).outgoing = .freed ∧
      (p.conn s.other).init = .received ∧ (p.conn s.other).incoming = .opened
  waiting : (p.peerCtx s).passiveConnected = false →
    (p.peerCtx s).socketBev = some ⟨s, .outgoing⟩ ∧ (p.conn s).outgoing = .opened
  received : (p.conn s).init = .received →
    (p.peerCtx s.other).passiveConnected = true ∨
      ((p.peerCtx s.other).proactiveConnected = true ∧ (p.conn s).incoming = .freed)
  ended : (p.conn s).incoming = .freed →
    (p.peerCtx s).passiveConnected = true ∨ (p.conn s).init = .received

/-- What holds at both sides at any time. -/
def PairSound (p : Pair) : Prop := ∀ s, SideSound p s

/-- INTERNAL: both sides have just called `connect_peer`. SOURCE: app/server.cpp:370-409 -/
theorem start_sound : PairSound start := by
  intro s
  constructor <;> simp [start]

/-- INTERNAL: TCP establishes a connection. -/
theorem established_sound {p : Pair} {s : Side} (hs : PairSound p) :
    PairSound (p.handle (.established s)) := by
  intro t
  obtain ⟨told, sent, proactive, passive, waiting, received, ended⟩ := hs t
  obtain rfl | rfl := s.eq_or_other t
  · constructor <;> simp_all [handle]
  · constructor <;> simp_all [handle]

/-- INTERNAL: a connection is accepted. SOURCE: app/server.cpp:281-295 -/
theorem accepted_sound {p : Pair} {s : Side} (hs : PairSound p)
    (hp : p.Pending (.accepted s)) : PairSound (p.handle (.accepted s)) := by
  obtain ⟨-, habsent⟩ := hp
  intro t
  obtain ⟨told, sent, proactive, passive, waiting, received, ended⟩ := hs t
  obtain rfl | rfl := s.eq_or_other t
  · constructor <;> simp_all [handle, acceptPeer]
  · constructor <;> simp_all [handle, acceptPeer]

/-- INTERNAL: **a side is told that its connection is established.**  It is not passive, since
its own bufferevent is open, so it takes the connection. SOURCE: app/server.cpp:248-263 -/
theorem connected_sound {p : Pair} {s : Side} (hs : PairSound p)
    (hp : p.Pending (.connected s)) :
    PairSound (p.handle (.connected s)) ∧
      ((p.handle (.connected s)).peerCtx s).proactiveConnected = true := by
  obtain ⟨-, hopen, hnews⟩ := hp
  have hwait : (p.peerCtx s).passiveConnected = false := by
    by_contra hpas
    rw [Bool.not_eq_false] at hpas
    rw [((hs s).passive hpas).2.1] at hopen
    cases hopen
  have hbefore : (p.peerCtx s).proactiveConnected = false := (hs s).told ▸ hnews
  have hunsent := (hs s).sent.mp hbefore
  constructor
  · intro t
    obtain ⟨told, sent, proactive, passive, waiting, received, ended⟩ := hs t
    obtain rfl | rfl := s.eq_or_other t
    · -- the side that has been told
      constructor <;> simp_all [handle, connectPeerEventCb, sendInit]
    · -- the other side, for which a message is on its way now
      constructor <;> simp_all [handle, connectPeerEventCb, sendInit]
  · simp [handle, connectPeerEventCb, hwait, sendInit, setTrans, setCtx, setConn]

/-- INTERNAL: **the initial message arrives.**  The acceptor has taken no accepted connection
yet; it gives this one up when it has taken its own, and otherwise takes this one and frees
its own. SOURCE: app/server.cpp:336-368 -/
theorem initMsg_sound {p : Pair} {s : Side} (hs : PairSound p)
    (hp : p.Pending (.initMsg s)) : PairSound (p.handle (.initMsg s)) := by
  obtain ⟨hopen, hflight⟩ := hp
  -- the initiator has taken its connection, so it is not passive
  have htaken : (p.peerCtx s).proactiveConnected = true := by
    by_contra hnot
    rw [Bool.not_eq_true, (hs s).sent, hflight] at hnot
    cases hnot
  have hwait : (p.peerCtx s).passiveConnected = false := ((hs s).proactive htaken).1
  -- nor is the acceptor, which would have got this message before
  have hwait' : (p.peerCtx s.other).passiveConnected = false := by
    by_contra hpas
    rw [Bool.not_eq_false] at hpas
    have hreceived := ((hs s.other).passive hpas).2.2.1
    rw [Side.other_other, hflight] at hreceived
    cases hreceived
  obtain ⟨hbev, hout⟩ := (hs s.other).waiting hwait'
  intro t
  obtain ⟨told, sent, proactive, passive, waiting, received, ended⟩ := hs t
  by_cases hpro : (p.peerCtx s.other).proactiveConnected = true
  · -- the acceptor gives the connection up, and nothing of its own changes
    obtain rfl | rfl := s.eq_or_other t
    · constructor <;> simp_all [handle, recvInitMsg, free]
    · constructor <;> simp_all [handle, recvInitMsg, free]
  · -- the acceptor becomes passive; its own connection has carried no message
    rw [Bool.not_eq_true] at hpro
    have hunsent := (hs s.other).sent.mp hpro
    have hended := (hs s.other).ended
    obtain rfl | rfl := s.eq_or_other t
    · constructor <;> simp_all [handle, recvInitMsg, freeOld, free]
    · constructor <;> simp_all [handle, recvInitMsg, freeOld, free]

/-- INTERNAL: an accepted connection ends; it was the passive side's own, which it has freed.
SOURCE: app/server.cpp:231-246 -/
theorem incomingEof_sound {p : Pair} {s : Side} (hs : PairSound p)
    (hp : p.Pending (.incomingEof s)) : PairSound (p.handle (.incomingEof s)) := by
  obtain ⟨hopen, hfreed, hflight⟩ := hp
  have hpas : (p.peerCtx s).passiveConnected = true := by
    by_contra hwait
    rw [Bool.not_eq_true] at hwait
    rw [((hs s).waiting hwait).2] at hfreed
    cases hfreed
  obtain ⟨-, -, hreceived, hother⟩ := (hs s).passive hpas
  have hidle : (p.conn s).init ≠ .received := by
    intro hreceived'
    have hpro : (p.peerCtx s).proactiveConnected = true := by
      by_contra hnot
      rw [Bool.not_eq_true, (hs s).sent, hreceived'] at hnot
      cases hnot
    rw [((hs s).proactive hpro).1] at hpas
    cases hpas
  intro t
  obtain ⟨told, sent, proactive, passive, waiting, received, ended⟩ := hs t
  obtain rfl | rfl := s.eq_or_other t
  · constructor <;> simp_all [handle, eventCb, free]
  · constructor <;> simp_all [handle, eventCb, free]

/-- INTERNAL: the end of a connection is ignored by its initiator.
SOURCE: app/server.cpp:248-263 -/
theorem outgoingEof_sound {p : Pair} {s : Side} (hs : PairSound p) :
    PairSound (p.handle (.outgoingEof s)) := by
  intro t
  obtain ⟨told, sent, proactive, passive, waiting, received, ended⟩ := hs t
  obtain rfl | rfl := s.eq_or_other t
  · constructor <;> simp_all [handle, connectPeerEventCb]
  · constructor <;> simp_all [handle, connectPeerEventCb]

/-- INTERNAL: a step that returns is a pending event being handled. -/
theorem step_ok {p p' : Pair} {e : ConnectEvent} {os : List Unit}
    (h : step p e = .ok (p', os)) : p.Pending e ∧ p' = p.handle e := by
  unfold step at h
  split at h
  · rename_i hp
    cases h
    exact ⟨hp, rfl⟩
  · cases h

/-- INTERNAL: any event. SOURCE: app/server.cpp:231-263, 281-295, 336-368 -/
theorem pair_step_sound {p p' : Pair} {e : ConnectEvent} {os : List Unit} (hs : PairSound p)
    (h : step p e = .ok (p', os)) : PairSound p' := by
  obtain ⟨hp, rfl⟩ := step_ok h
  cases e with
  | established s => exact established_sound hs
  | connected s => exact (connected_sound hs hp).1
  | accepted s => exact accepted_sound hs hp
  | initMsg s => exact initMsg_sound hs hp
  | incomingEof s => exact incomingEof_sound hs hp
  | outgoingEof s => exact outgoingEof_sound hs

/-! ## Where the events lead -/

/-- Both sides have taken their own connections. -/
def BothProactive (p : Pair) : Prop := ∀ s, (p.peerCtx s).proactiveConnected = true

/-- INTERNAL: only being told that the own connection is established makes a side proactive,
and nothing undoes it. SOURCE: app/server.cpp:248-263, 336-368 -/
theorem handle_proactive (p : Pair) (e : ConnectEvent) (t : Side) (h : e ≠ .connected t) :
    ((p.handle e).peerCtx t).proactiveConnected = (p.peerCtx t).proactiveConnected := by
  cases e with
  | established s => rfl
  | accepted s => rfl
  | connected s =>
    have hne : t ≠ s := fun heq => h (by rw [heq])
    simp only [handle, connectPeerEventCb, sendInit]
    split
    · split
      · rfl
      · simp [hne]
    · rfl
  | initMsg s =>
    simp only [handle, recvInitMsg]
    split
    · simp
    · by_cases ht : t = s.other
      · subst ht
        simp
      · simp [ht]
  | incomingEof s => rfl
  | outgoingEof s => rfl

/-- INTERNAL: **when both sides come to have taken their own connections**: when one is told
after the other. SOURCE: app/server.cpp:248-263 -/
theorem becomes_both_iff {p p' : Pair} {e : ConnectEvent} {os : List Unit} (hs : PairSound p)
    (hnot : ¬ BothProactive p) (h : step p e = .ok (p', os)) :
    BothProactive p' ↔ ¬ ToldFirst p e := by
  obtain ⟨hp, rfl⟩ := step_ok h
  by_cases hconn : ∃ s, e = .connected s
  · obtain ⟨s, rfl⟩ := hconn
    have htaken := (connected_sound hs hp).2
    have hother := handle_proactive p (.connected s) s.other (by simp)
    unfold ToldFirst
    rw [Bool.not_eq_false]
    constructor
    · intro hboth
      rw [← hother]
      exact hboth s.other
    · intro hpro t
      obtain rfl | rfl := s.eq_or_other t
      · exact htaken
      · rw [hother]
        exact hpro
  · have hsame : ∀ t, ((p.handle e).peerCtx t).proactiveConnected =
        (p.peerCtx t).proactiveConnected := by
      intro t
      exact handle_proactive p e t fun heq => hconn ⟨t, heq⟩
    have hfirst : ToldFirst p e := by
      cases e with
      | connected s => exact absurd ⟨s, rfl⟩ hconn
      | established s => trivial
      | accepted s => trivial
      | initMsg s => trivial
      | incomingEof s => trivial
      | outgoingEof s => trivial
    apply iff_of_false _ (not_not.mpr hfirst)
    intro hboth
    exact hnot fun t => hsame t ▸ hboth t

/-- INTERNAL: both sides stay proactive. SOURCE: app/server.cpp:248-263, 336-368 -/
theorem both_stays {p p' : Pair} {e : ConnectEvent} {os : List Unit} (hs : PairSound p)
    (hboth : BothProactive p) (h : step p e = .ok (p', os)) : BothProactive p' := by
  obtain ⟨hp, rfl⟩ := step_ok h
  intro t
  by_cases hconn : e = .connected t
  · subst hconn
    exact (connected_sound hs hp).2
  · rw [handle_proactive p e t hconn]
    exact hboth t

/-- INTERNAL: **where it ends.**  When nothing is pending and both connections have been
established, the sides have settled unless both have taken their own.
SOURCE: app/server.cpp:248-263, 336-368 -/
theorem settled_iff {p : Pair} (hs : PairSound p) (hquiet : Quiescent p)
    (htcp : ∀ s, (p.conn s).established = true) : Settled p ↔ ¬ BothProactive p := by
  constructor
  · rintro ⟨s, -, -, -, -, htrans⟩ hboth
    have hown := ((hs s.other).proactive (hboth s.other)).2
    rw [hown, Option.some.injEq] at htrans
    cases congrArg Bev.role htrans
  · intro hnot
    obtain ⟨s, hs'⟩ : ∃ s, (p.peerCtx s).proactiveConnected = false := by
      simpa [BothProactive] using hnot
    -- it was not told, so it has freed its own bufferevent for the accepted one
    have hpas : (p.peerCtx s).passiveConnected = true := by
      by_contra hwait
      rw [Bool.not_eq_true] at hwait
      exact hquiet (.connected s)
        ⟨htcp s, ((hs s).waiting hwait).2, (hs s).told.trans hs'⟩
    obtain ⟨htrans, -, hreceived, hopen⟩ := (hs s).passive hpas
    have htaken : (p.peerCtx s.other).proactiveConnected = true := by
      by_contra hother
      rw [Bool.not_eq_true, (hs s.other).sent, hreceived] at hother
      cases hother
    obtain ⟨hwait, hown⟩ := (hs s.other).proactive htaken
    refine ⟨s.other, htcp _, ((hs s.other).waiting hwait).2, hopen, hown, ?_⟩
    rw [Side.other_other]
    exact htrans

/-- **Two replicas settle on one connection exactly when no side is told after the other.**
For every order of the events at two replicas that have called `connect_peer` for each other
which ends with nothing pending and both connections established by TCP: a connection is
open and the two transports are its ends, if and only if whenever a side is told that its
connection is established, the other side has not been told so before.
SOURCE: app/server.cpp:231-263, 281-295, 336-409 -/
theorem settles_iff (events : List ConnectEvent) {p : Pair} {os : List Unit}
    (hrun : Machine.run step start events = .ok (p, os)) (hquiet : Quiescent p)
    (htcp : ∀ s, (p.conn s).established = true) :
    Settled p ↔ Machine.Guarded step ToldFirst start events := by
  have hs : PairSound p := Machine.run_keeps step
    (fun p e p' os hs h => pair_step_sound hs h) start_sound hrun
  have hstart : ¬ BothProactive start := fun hboth => Bool.false_ne_true (hboth .x)
  rw [settled_iff hs hquiet htcp]
  apply Machine.guarded_iff_of_lasting step (J := PairSound) _ _ _ start_sound hstart hrun
  · intro p e p' os hs h
    exact pair_step_sound hs h
  · intro p e p' os hs hnot h
    exact becomes_both_iff hs hnot h
  · intro p e p' os hs hboth h
    exact both_stays hs hboth h

/-- The connection of `x` is up and heard of before `y` is told of its own. -/
theorem settles_one_after_the_other :
    ∃ p os, Machine.run step start
        [.established .x, .connected .x, .accepted .x, .established .y, .initMsg .x,
          .accepted .y, .incomingEof .y] = .ok (p, os) ∧ Settled p :=
  ⟨_, _, rfl, (settles_iff
    [.established .x, .connected .x, .accepted .x, .established .y, .initMsg .x,
      .accepted .y, .incomingEof .y] rfl
    (by rintro (s | s | s | s | s | s) <;> cases s <;> decide)
    (by rintro (_ | _) <;> rfl)).mpr (by decide)⟩

/-- Both sides are told before either hears of the other.  Both connections are established
and nothing is pending at the end, and neither is open. -/
theorem both_give_up :
    ∃ p os, Machine.run step start
        [.established .x, .established .y, .connected .x, .connected .y, .accepted .x,
          .accepted .y, .initMsg .x, .initMsg .y, .outgoingEof .x, .outgoingEof .y] =
            .ok (p, os) ∧
      Quiescent p ∧ (∀ s, (p.conn s).established = true) ∧
      (∀ s, (p.conn s).incoming = .freed) ∧ (∀ s, p.peerTrans s = some ⟨s, .outgoing⟩) ∧
      ¬ Settled p := by
  refine ⟨_, _, rfl, ?_, ?_, ?_, ?_, ?_⟩
  · rintro (s | s | s | s | s | s) <;> cases s <;> decide
  · rintro (_ | _) <;> rfl
  · rintro (_ | _) <;> rfl
  · rintro (_ | _) <;> rfl
  · rintro ⟨s, -, -, hopen, -⟩
    cases s <;> cases hopen

end MorphlingC.Analysis
