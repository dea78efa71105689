import MorphlingC.Library.Quorum
import MorphlingC.Model.Client

/-!
# Which answers confirm a read

A read of the client is meant to be confirmed by a quorum of answers to its own requests.
The client's collection of answers is cleared when a request is completed, but not after
set-up, and answers that come late are put into it like others; so places of the
collection may hold answers to set-up or to an earlier read, and the client counts them.

As long as it counts none, every read is confirmed by a fresh quorum
(`reads_freshly_confirmed`).  The invariant `TurnOk` says, for an open read, that the
places filled in its round hold exactly the answers to its requests.
-/

set_option autoImplicit false

namespace MorphlingC.Analysis

open MorphlingC.Library MorphlingC.Model

variable {n : ℕ}

/-- Every read that is over was confirmed by a majority of the replicas, which had answered
requests of its own round with the epoch that the client follows, and no replica had
answered one with a higher epoch. -/
def FreshlyConfirmed (h : List (Observation n)) : Prop :=
  ∀ (p r epoch : ℕ), h[p]? = some (.readDone r epoch) →
    (Majority fun id => .answered id r epoch ∈ h.take p) ∧
      ∀ id e, .answered id r e ∈ h.take p → e ≤ epoch

/-- The answer of `id` to a request of round `r`, with a guidance of the epoch, finds no
left-over that matters: it does not take the place of an answer to the open read, unless it
is one itself, and if the client looks for a quorum on it, every place of the collection
that then holds the epoch the client follows was filled by an answer to this read. -/
def NoLeftOver (s : Session n) (id : Fin n) (r epoch : ℕ) (looks : Prop) : Prop :=
  (Session.reading s.client → s.filledBy id = some s.round → r = s.round) ∧
    (looks → (epoch = s.client.leadingGuidance.epoch → r = s.round) ∧
      ∀ i ≠ id, (s.client.oneTurnCollection i).epoch = s.client.leadingGuidance.epoch →
        s.filledBy i = some s.round)

/-- `NoLeftOver` for the events that are answers.  The client looks for a quorum on a
guidance while it waits for guidances, and on a reply while it reads. -/
def CountsFreshAnswers (s : Session n) : ClientEvent n → Prop
  | .connected _ => True
  | .checkSetup => True
  | .oneSend _ => True
  | .guidance k guide => ∀ id r, s.asked[k]? = some (id, r) →
      NoLeftOver s id r guide.epoch (s.client.status = .waitingGuidance)
  | .clientReply k msg => ∀ id r, s.submitted[k]? = some (id, r) →
      NoLeftOver s id r msg.guidance.epoch (s.client.status = .reading)
  | .otherEpoch k guide => ∀ id r, s.submitted[k]? = some (id, r) →
      NoLeftOver s id r guide.epoch (s.client.status = .waitingGuidance)

/-! ## The quorum check -/

/-- INTERNAL: no epoch collected is above the last key of the votes.
SOURCE: app/client2.cpp:230-236 -/
theorem epoch_le_lastEpoch (c : Client n) (i : Fin n) :
    (c.oneTurnCollection i).epoch ≤ c.lastEpoch := by
  have hmem : (c.oneTurnCollection i).epoch ∈ c.epochs :=
    List.mem_map_of_mem (List.mem_finRange i)
  have hfold : ∀ (l : List ℕ) (e : ℕ), e ∈ l → e ≤ l.foldr max 0 := by
    intro l e he
    induction l with
    | nil => cases he
    | cons x rest ih =>
      rw [List.foldr_cons]
      rcases List.mem_cons.mp he with rfl | hrest
      · exact le_max_left _ _
      · exact (ih hrest).trans (le_max_right _ _)
  exact hfold _ _ hmem

/-- INTERNAL: **what the quorum check finds**: no place holds a higher epoch than the client
follows, and a majority of the places hold that one. SOURCE: app/client2.cpp:225-254 -/
theorem checkGuidanceQuorum_true {c : Client n} (h : c.checkGuidanceQuorum = true) :
    (∀ i, (c.oneTurnCollection i).epoch ≤ c.leadingGuidance.epoch) ∧
      Majority fun i => (c.oneTurnCollection i).epoch = c.leadingGuidance.epoch := by
  unfold Client.checkGuidanceQuorum at h
  split_ifs at h with h₁ h₂ h₃ h₄ h₅
  have heq : c.leadingGuidance.epoch = c.lastEpoch := by omega
  refine ⟨fun i => heq ▸ epoch_le_lastEpoch c i, ?_⟩
  refine majority_of_count
    (v := (List.finRange n).map fun i =>
      decide ((c.oneTurnCollection i).epoch = c.leadingGuidance.epoch))
    (by simp) ?_ ?_
  · have hcount : ((List.finRange n).map fun i =>
        decide ((c.oneTurnCollection i).epoch = c.leadingGuidance.epoch)).count true =
          c.epochVotes c.lastEpoch := by
      rw [← heq, Client.epochVotes, Client.epochs, List.count, List.count, List.countP_map,
        List.countP_map]
      apply List.countP_congr
      intro i _
      simp
    rw [hcount]
    exact h₅
  · intro i hi
    simpa using hi

/-! ## Reading what is observed -/

/-- The epochs of the answers of a replica to requests of a round. -/
def answersTo (h : List (Observation n)) (i : Fin n) (r : ℕ) : List ℕ :=
  h.filterMap fun
    | .answered id r' e => if id = i ∧ r' = r then some e else none
    | .readDone _ _ => none

/-- INTERNAL: membership in the answers. -/
theorem mem_answersTo {h : List (Observation n)} {i : Fin n} {r e : ℕ} :
    e ∈ answersTo h i r ↔ .answered i r e ∈ h := by
  unfold answersTo
  rw [List.mem_filterMap]
  constructor
  · rintro ⟨o, ho, heq⟩
    cases o with
    | answered id r' e' =>
      dsimp only at heq
      split_ifs at heq with hsame
      cases heq
      rw [hsame.1, hsame.2] at ho
      exact ho
    | readDone _ _ => cases heq
  · intro ho
    exact ⟨_, ho, by simp⟩

/-- INTERNAL: one more answer. -/
theorem answersTo_answered (h : List (Observation n)) (id i : Fin n) (r r' e : ℕ) :
    answersTo (h ++ [.answered id r e]) i r' =
      answersTo h i r' ++ if id = i ∧ r = r' then [e] else [] := by
  unfold answersTo
  rw [List.filterMap_append]
  by_cases hsame : id = i ∧ r = r'
  · simp [hsame]
  · simp [hsame]

/-- INTERNAL: an answer confirms nothing by itself. -/
theorem FreshlyConfirmed.answered {h : List (Observation n)} (hf : FreshlyConfirmed h)
    (id : Fin n) (r e : ℕ) : FreshlyConfirmed (h ++ [.answered id r e]) := by
  intro p r' epoch hp
  have hlt : p < h.length := by
    obtain ⟨hlt, hget⟩ := List.getElem?_eq_some_iff.mp hp
    by_contra hge
    rw [List.getElem_append_right (by omega), List.getElem_singleton] at hget
    cases hget
  rw [List.getElem?_append_left hlt] at hp
  rw [List.take_append_of_le_length (le_of_lt hlt)]
  exact hf p r' epoch hp

/-- INTERNAL: a read that is over is confirmed by what was observed before. -/
theorem FreshlyConfirmed.done {h : List (Observation n)} (hf : FreshlyConfirmed h) {r epoch : ℕ}
    (hmajority : Majority fun id => .answered id r epoch ∈ h)
    (hbound : ∀ id e, .answered id r e ∈ h → e ≤ epoch) :
    FreshlyConfirmed (h ++ [.readDone r epoch]) := by
  intro p r' epoch' hp
  rcases Nat.lt_or_ge p h.length with hlt | hge
  · rw [List.getElem?_append_left hlt] at hp
    rw [List.take_append_of_le_length (le_of_lt hlt)]
    exact hf p r' epoch' hp
  · obtain ⟨hlt, hget⟩ := List.getElem?_eq_some_iff.mp hp
    rw [List.length_append, List.length_singleton] at hlt
    have hpeq : p = h.length := by omega
    subst hpeq
    rw [List.getElem_append_right le_rfl, List.getElem_singleton] at hget
    cases hget
    rw [List.take_left]
    exact ⟨hmajority, hbound⟩

/-! ## The invariant -/

/-- What holds while a read is open: each replica has answered its request of the round, or
has one to answer, but not both, and the places filled in this round hold the answers. -/
structure OpenRead (s : Session n) (h : List (Observation n)) : Prop where
  started : 1 ≤ s.round
  once : ∀ i, s.asked.count (i, s.round) + s.submitted.count (i, s.round) +
    (answersTo h i s.round).length ≤ 1
  held : ∀ i, ∀ e ∈ answersTo h i s.round,
    s.filledBy i = some s.round ∧ (s.client.oneTurnCollection i).epoch = e
  filled : ∀ i, s.filledBy i = some s.round →
    (s.client.oneTurnCollection i).epoch ∈ answersTo h i s.round

/-- **The invariant of a session `s` in which `h` has been observed.** -/
structure TurnOk (s : Session n) (h : List (Observation n)) : Prop where
  asked : ∀ q ∈ s.asked, q.2 ≤ s.round
  answered : ∀ id r e, .answered id r e ∈ h → r ≤ s.round
  filled : ∀ i r, s.filledBy i = some r → r ≤ s.round
  submitted : ∀ q ∈ s.submitted, q.2 = s.round ∧
    (s.client.status = .reading ∨ s.client.status = .writing)
  single : s.submitted.length ≤ 1
  setup : s.started = false → s.submitted = [] ∧ Session.reading s.client = false
  turn : Session.reading s.client → OpenRead s h
  fresh : FreshlyConfirmed h

/-- A request of `id` in the round `r` has been taken off those of `s`. -/
structure Taken (s : Session n) (asked submitted : List (Fin n × ℕ)) (id : Fin n) (r : ℕ) :
    Prop where
  round : r ≤ s.round
  ofAsked : ∀ q ∈ asked, q ∈ s.asked
  ofSubmitted : ∀ q ∈ submitted, q ∈ s.submitted
  single : submitted.length ≤ 1
  count : ∀ i, asked.count (i, s.round) + submitted.count (i, s.round) +
    (if id = i ∧ r = s.round then 1 else 0) =
      s.asked.count (i, s.round) + s.submitted.count (i, s.round)

/-- INTERNAL: taking an element off a list, its count goes down by one. -/
theorem count_eraseIdx {α : Type} [BEq α] [LawfulBEq α] [DecidableEq α] {l : List α} {k : ℕ}
    {a : α} (h : l[k]? = some a) (b : α) :
    (l.eraseIdx k).count b + (if a = b then 1 else 0) = l.count b := by
  obtain ⟨hk, rfl⟩ := List.getElem?_eq_some_iff.mp h
  rw [← (List.getElem_cons_eraseIdx_perm hk).count_eq b, List.count_cons]
  simp

/-- INTERNAL: a request for the guidance is taken off. -/
theorem TurnOk.taken_asked {s : Session n} {h : List (Observation n)} (hs : TurnOk s h)
    {k : ℕ} {id : Fin n} {r : ℕ} (hk : s.asked[k]? = some (id, r)) :
    Taken s (s.asked.eraseIdx k) s.submitted id r where
  round := hs.asked _ (List.mem_of_getElem? hk)
  ofAsked := fun _ hq => List.mem_of_mem_eraseIdx hq
  ofSubmitted := fun _ hq => hq
  single := hs.single
  count := fun i => by
    have hcount := count_eraseIdx hk (i, s.round)
    simp only [Prod.mk.injEq] at hcount
    omega

/-- INTERNAL: an operation is taken off; it was the only one, and of this round. -/
theorem TurnOk.taken_submitted {s : Session n} {h : List (Observation n)} (hs : TurnOk s h)
    {k : ℕ} {id : Fin n} {r : ℕ} (hk : s.submitted[k]? = some (id, r)) :
    s.submitted.eraseIdx k = [] ∧ (s.client.status = .reading ∨ s.client.status = .writing) ∧
      Taken s s.asked [] id r := by
  obtain ⟨hround, hstatus⟩ := hs.submitted _ (List.mem_of_getElem? hk)
  have hnil : s.submitted.eraseIdx k = [] := by
    obtain ⟨hlt, -⟩ := List.getElem?_eq_some_iff.mp hk
    have hsingle := hs.single
    apply List.eq_nil_of_length_eq_zero
    rw [List.length_eraseIdx_of_lt hlt]
    omega
  refine ⟨hnil, hstatus, hround.le, fun _ hq => hq, fun _ hq => absurd hq List.not_mem_nil,
    Nat.zero_le _, fun i => ?_⟩
  have hcount := count_eraseIdx hk (i, s.round)
  rw [hnil] at hcount
  simp only [Prod.mk.injEq] at hcount
  omega

/-- INTERNAL: **an answer is put into the collection** while a read is open. -/
theorem OpenRead.store {s s' : Session n} {h : List (Observation n)} (ho : OpenRead s h)
    {id : Fin n} {r : ℕ} {guide : Guidance n} (htaken : Taken s s'.asked s'.submitted id r)
    (hfits : s.filledBy id = some s.round → r = s.round)
    (hround : s'.round = s.round)
    (hcollection : s'.client.oneTurnCollection =
      Function.update s.client.oneTurnCollection id guide)
    (hfilledBy : s'.filledBy = Function.update s.filledBy id (some r)) :
    OpenRead s' (h ++ [.answered id r guide.epoch]) := by
  have honce := ho.once id
  have hcount := htaken.count
  -- an answer to this round is the first of its replica
  have hfirst : r = s.round → answersTo h id s.round = [] := by
    intro hr
    have hc := hcount id
    rw [if_pos ⟨rfl, hr⟩] at hc
    exact List.eq_nil_of_length_eq_zero (by omega)
  -- an answer to another round takes no place that was filled in this one
  have hother : r ≠ s.round → answersTo h id s.round = [] := by
    intro hr
    apply List.eq_nil_iff_forall_not_mem.mpr
    intro e he
    exact hr (hfits (ho.held id e he).1)
  have hnone : answersTo h id s.round = [] := by
    by_cases hr : r = s.round
    · exact hfirst hr
    · exact hother hr
  constructor
  · rw [hround]
    exact ho.started
  · intro i
    rw [hround, answersTo_answered, List.length_append]
    have hc := hcount i
    have ho' := ho.once i
    by_cases hi : id = i ∧ r = s.round
    · rw [if_pos hi] at hc ⊢
      rw [List.length_singleton]
      omega
    · rw [if_neg hi] at hc ⊢
      rw [List.length_nil]
      omega
  · intro i e he
    rw [hround, answersTo_answered] at he
    rw [hround, hcollection, hfilledBy]
    by_cases hi : i = id
    · subst hi
      rw [hnone, List.nil_append] at he
      rw [Function.update_self, Function.update_self]
      split_ifs at he with hr
      · rw [List.mem_singleton] at he
        exact ⟨by rw [hr.2], he.symm⟩
      · cases he
    · rw [if_neg (fun hsame => hi hsame.1.symm), List.append_nil] at he
      rw [Function.update_of_ne hi, Function.update_of_ne hi]
      exact ho.held i e he
  · intro i hi
    rw [hround, hfilledBy] at hi
    rw [hround, hcollection, answersTo_answered]
    by_cases hii : i = id
    · subst hii
      rw [Function.update_self, Option.some.injEq] at hi
      rw [if_pos ⟨rfl, hi⟩, Function.update_self]
      exact List.mem_append_right _ (List.mem_singleton_self _)
    · rw [Function.update_of_ne hii] at hi ⊢
      exact List.mem_append_left _ (ho.filled i hi)

/-- INTERNAL: **a quorum found among fresh places confirms the read**: when each place that
holds the epoch the client follows was filled in this round, a majority has answered with it
in this round, and nobody with a higher one. SOURCE: app/client2.cpp:225-254 -/
theorem OpenRead.confirmed {s : Session n} {h : List (Observation n)} (ho : OpenRead s h)
    (hcheck : s.client.checkGuidanceQuorum = true)
    (hfilled : ∀ i, (s.client.oneTurnCollection i).epoch = s.client.leadingGuidance.epoch →
      s.filledBy i = some s.round) :
    (Majority fun i => .answered i s.round s.client.leadingGuidance.epoch ∈ h) ∧
      ∀ i e, .answered i s.round e ∈ h → e ≤ s.client.leadingGuidance.epoch := by
  obtain ⟨hbound, hmajority⟩ := checkGuidanceQuorum_true hcheck
  constructor
  · apply hmajority.mono
    intro i hi
    have hmem := ho.filled i (hfilled i hi)
    rw [hi] at hmem
    exact mem_answersTo.mp hmem
  · intro i e hmem
    obtain ⟨-, he⟩ := ho.held i e (mem_answersTo.mpr hmem)
    rw [← he]
    exact hbound i

/-- INTERNAL: rounds stay within bounds when an answer comes in. -/
theorem TurnOk.answered_le {s : Session n} {h : List (Observation n)} (hs : TurnOk s h)
    {id : Fin n} {r e : ℕ} (hr : r ≤ s.round) :
    ∀ id' r' e', .answered id' r' e' ∈ h ++ [.answered id r e] → r' ≤ s.round := by
  intro id' r' e' hmem
  rcases List.mem_append.mp hmem with hold | hnew
  · exact hs.answered id' r' e' hold
  · rw [List.mem_singleton] at hnew
    cases hnew
    exact hr

/-- INTERNAL: places stay within bounds when an answer is put in. -/
theorem TurnOk.filled_le {s : Session n} {h : List (Observation n)} (hs : TurnOk s h)
    {id : Fin n} {r : ℕ} (hr : r ≤ s.round) :
    ∀ i r', Function.update s.filledBy id (some r) i = some r' → r' ≤ s.round := by
  intro i r' hi
  by_cases hii : i = id
  · subst hii
    rw [Function.update_self, Option.some.injEq] at hi
    omega
  · rw [Function.update_of_ne hii] at hi
    exact hs.filled i r' hi

/-! ## Answers -/

/-- INTERNAL: **an answer is put into the collection and no more**: the status stays.
SOURCE: app/client2.cpp:482-484 -/
theorem TurnOk.store {s : Session n} {h : List (Observation n)} (hs : TurnOk s h)
    {asked submitted : List (Fin n × ℕ)} {id : Fin n} {r : ℕ} {guide : Guidance n}
    (htaken : Taken s asked submitted id r)
    (hfits : Session.reading s.client → s.filledBy id = some s.round → r = s.round) :
    TurnOk
      (Session.answer { s with asked := asked, submitted := submitted } id r guide.epoch true
        (s.client.setGuidance id guide)).1
      (h ++ (Session.answer { s with asked := asked, submitted := submitted } id r guide.epoch
        true (s.client.setGuidance id guide)).2) := by
  have hstays : (s.client.setGuidance id guide).status = s.client.status := rfl
  have hquiet : (Session.reading s.client && decide (s.client.status = .idle)) = false := by
    unfold Session.reading
    cases s.client.status <;> rfl
  have hkept : (decide (s.client.status ≠ .idle) && decide (s.client.status = .idle)) = false := by
    cases s.client.status <;> rfl
  simp only [Session.answer, hstays, hquiet, hkept, Bool.false_eq_true, if_false, if_true]
  constructor
  · exact fun q hq => hs.asked q (htaken.ofAsked q hq)
  · exact hs.answered_le htaken.round
  · exact hs.filled_le htaken.round
  · exact fun q hq => hs.submitted q (htaken.ofSubmitted q hq)
  · exact htaken.single
  · intro hstarted
    obtain ⟨hnil, hclosed⟩ := hs.setup hstarted
    refine ⟨List.eq_nil_iff_forall_not_mem.mpr fun q hq => ?_, hclosed⟩
    have hmem := htaken.ofSubmitted q hq
    rw [hnil] at hmem
    cases hmem
  · exact fun hread => (hs.turn hread).store htaken (hfits hread) rfl rfl rfl
  · exact hs.fresh.answered id r guide.epoch

/-- INTERNAL: when the client looks for a quorum on an answer that finds no left-over, every
place of the collection that counts was filled in this round. SOURCE: app/client2.cpp:485-490 -/
theorem NoLeftOver.filled {s : Session n} {id : Fin n} {r : ℕ} {guide : Guidance n}
    (h : NoLeftOver s id r guide.epoch True) (i : Fin n)
    (hi : ((s.client.setGuidance id guide).oneTurnCollection i).epoch =
      s.client.leadingGuidance.epoch) :
    Function.update s.filledBy id (some r) i = some s.round := by
  obtain ⟨hself, hothers⟩ := h.2 trivial
  by_cases hii : i = id
  · subst hii
    rw [Client.setGuidance_self] at hi
    rw [Function.update_self, hself hi]
  · rw [Client.setGuidance_of_ne _ hii] at hi
    rw [Function.update_of_ne hii]
    exact hothers i hii hi

/-- INTERNAL: **an answer on which the client looks for a quorum**, with no operation left to
answer: either there is none and the client waits, or the read is over, and was confirmed by
answers to its own requests. SOURCE: app/client2.cpp:485-490, 496-504 -/
theorem TurnOk.look {s : Session n} {h : List (Observation n)} (hs : TurnOk s h)
    {asked : List (Fin n × ℕ)} {id : Fin n} {r : ℕ} {guide : Guidance n}
    (htaken : Taken s asked [] id r) (hread : Session.reading s.client)
    (hfits : NoLeftOver s id r guide.epoch True) {c : Client n}
    (hc : c = if (s.client.setGuidance id guide).checkGuidanceQuorum then
        { (s.client.setGuidance id guide).resetTurnCollection with status := .idle }
      else { s.client.setGuidance id guide with status := .waitingGuidance }) :
    TurnOk (Session.answer { s with asked := asked, submitted := [] } id r guide.epoch true c).1
      (h ++ (Session.answer { s with asked := asked, submitted := [] } id r guide.epoch
        true c).2) := by
  have hopen : s.client.status ≠ .idle := by
    intro hidle
    simp [Session.reading, hidle] at hread
  have hstored : OpenRead
      { s with
        client := s.client.setGuidance id guide
        asked := asked
        submitted := []
        filledBy := Function.update s.filledBy id (some r) }
      (h ++ [.answered id r guide.epoch]) :=
    (hs.turn hread).store htaken (hfits.1 hread) rfl rfl rfl
  by_cases hcheck : (s.client.setGuidance id guide).checkGuidanceQuorum = true
  · rw [if_pos hcheck] at hc
    have hidle : c.status = .idle := by rw [hc]
    have hleading : c.leadingGuidance = s.client.leadingGuidance := by
      rw [hc]
      rfl
    simp only [Session.answer, hidle, hopen, hread, hleading, ne_eq, not_false_eq_true,
      decide_true, Bool.and_self, if_true]
    obtain ⟨hmajority, hbound⟩ := hstored.confirmed hcheck hfits.filled
    constructor
    · exact fun q hq => hs.asked q (htaken.ofAsked q hq)
    · intro id' r' e' hmem
      have hmem' : .answered id' r' e' ∈ h ++ [.answered id r guide.epoch] := by
        simpa using hmem
      exact hs.answered_le htaken.round id' r' e' hmem'
    · exact fun _ _ hnone => absurd hnone (by simp)
    · exact fun _ hq => absurd hq List.not_mem_nil
    · exact Nat.zero_le _
    · exact fun _ => ⟨rfl, by simp [Session.reading, hidle]⟩
    · intro hreading
      simp [Session.reading, hidle] at hreading
    · have hsplit : ∀ o, h ++ [.answered id r guide.epoch, o] =
          (h ++ [.answered id r guide.epoch]) ++ [o] := fun o => by simp
      rw [hsplit]
      exact (hs.fresh.answered id r guide.epoch).done hmajority hbound
  · rw [if_neg hcheck] at hc
    have hwaits : c.status = .waitingGuidance := by rw [hc]
    simp only [Session.answer, hwaits, reduceCtorEq, decide_false, Bool.and_false,
      Bool.false_eq_true, if_false, if_true]
    constructor
    · exact fun q hq => hs.asked q (htaken.ofAsked q hq)
    · exact hs.answered_le htaken.round
    · exact hs.filled_le htaken.round
    · exact fun _ hq => absurd hq List.not_mem_nil
    · exact Nat.zero_le _
    · intro hstarted
      rw [(hs.setup hstarted).2] at hread
      cases hread
    · intro _
      refine (hs.turn hread).store htaken (hfits.1 hread) rfl ?_ rfl
      rw [hc]
      rfl
    · exact hs.fresh.answered id r guide.epoch

/-- INTERNAL: **a reply to a write** ends it: the collection is cleared.
SOURCE: app/client2.cpp:505-510 -/
theorem TurnOk.written {s : Session n} {h : List (Observation n)} (hs : TurnOk s h)
    {asked : List (Fin n × ℕ)} {id : Fin n} {r epoch : ℕ} (htaken : Taken s asked [] id r)
    (hwriting : s.client.status = .writing) :
    TurnOk (Session.answer { s with asked := asked, submitted := [] } id r epoch false
        { s.client.resetTurnCollection with status := .idle }).1
      (h ++ (Session.answer { s with asked := asked, submitted := [] } id r epoch false
        { s.client.resetTurnCollection with status := .idle }).2) := by
  simp only [Session.answer, Session.reading, hwriting, reduceCtorEq, ne_eq, not_false_eq_true,
    decide_true, decide_false, Bool.and_self, Bool.or_self, Bool.false_and, Bool.false_eq_true,
    if_true, if_false]
  constructor
  · exact fun q hq => hs.asked q (htaken.ofAsked q hq)
  · exact hs.answered_le htaken.round
  · exact fun _ _ hnone => absurd hnone (by simp)
  · exact fun _ hq => absurd hq List.not_mem_nil
  · exact Nat.zero_le _
  · exact fun _ => ⟨rfl, rfl⟩
  · exact fun hreading => absurd hreading (by simp [Session.reading])
  · exact hs.fresh.answered id r epoch

/-! ## Sending -/

/-- INTERNAL: **what `one_send` does**, when it returns: nothing, but for its counters; or,
for an idle client, it sends an operation to one replica and, for a read, asks all others
for their guidance. SOURCE: app/client2.cpp:350-418 -/
theorem oneSend_cases {cfg : ClientConfig} {c c' : Client n} {g : ℕ}
    {sends : List (Fin n × Request)} (h : c.oneSend cfg g = .ok (c', sends)) :
    (sends = [] ∧ c'.status = c.status ∧ c'.oneTurnCollection = c.oneTurnCollection) ∨
    (c.status = .idle ∧ c'.oneTurnCollection = c.oneTurnCollection ∧
      ∃ rid msg, ((c'.status = .reading ∧ sends = (rid, .operation msg) ::
          ((List.finRange n).filter (· ≠ rid)).map fun id => (id, .getGuidance)) ∨
        (c'.status = .writing ∧ sends = [(rid, .operation msg)]))) := by
  unfold Client.oneSend at h
  by_cases hidle : c.status = .idle
  · rw [if_neg (not_not.mpr hidle)] at h
    unfold Client.canSend at h
    by_cases hcan : Client.atomicInt (g + 1) ≤ cfg.msgNums
    · simp only [hcan, if_true, Bool.not_true, Bool.false_eq_true, if_false] at h
      obtain ⟨msg, -, h⟩ := bind_eq_ok.mp h
      split at h
      · cases h
      · rename_i rid _
        split_ifs at h with hread
        · cases h
          exact .inr ⟨hidle, rfl, rid, msg, .inl ⟨rfl, rfl⟩⟩
        · cases h
          exact .inr ⟨hidle, rfl, rid, msg, .inr ⟨rfl, rfl⟩⟩
    · simp only [hcan, if_false, Bool.not_false, if_true] at h
      cases h
      exact .inl ⟨rfl, rfl, rfl⟩
  · rw [if_pos hidle] at h
    cases h
    exact .inl ⟨rfl, rfl, rfl⟩

/-- INTERNAL: nothing of a round that is to come has been asked, answered or filled in. -/
theorem TurnOk.next_round {s : Session n} {h : List (Observation n)} (hs : TurnOk s h)
    (i : Fin n) : s.asked.count (i, s.round + 1) = 0 ∧ answersTo h i (s.round + 1) = [] ∧
      s.filledBy i ≠ some (s.round + 1) := by
  refine ⟨List.count_eq_zero.mpr fun hmem => ?_, ?_, fun hi => ?_⟩
  · have hle : s.round + 1 ≤ s.round := hs.asked _ hmem
    omega
  · apply List.eq_nil_iff_forall_not_mem.mpr
    intro e he
    have hle := hs.answered _ _ _ (mem_answersTo.mp he)
    omega
  · have hle := hs.filled _ _ hi
    omega

/-- INTERNAL: each other replica is asked once. -/
theorem count_others (rid i : Fin n) (r : ℕ) :
    (((List.finRange n).filter (· ≠ rid)).map fun id => (id, r)).count (i, r) +
      [(rid, r)].count (i, r) = 1 := by
  have hpair : (fun id : Fin n => (id, r)) = (Prod.mk · r) := rfl
  rw [hpair, List.count_map_of_injective _ _ (fun a b hab => (Prod.mk.inj hab).1)]
  by_cases hi : i = rid
  · subst hi
    rw [List.count_eq_zero.mpr (by simp)]
    simp
  · rw [List.count_filter (by simpa using hi), List.count_singleton,
      (List.nodup_finRange n).count, if_pos (List.mem_finRange i)]
    simp [Ne.symm hi]

/-- INTERNAL: **a round is opened**: the operation goes to one replica and, for a read, all
others are asked for their guidance. SOURCE: app/client2.cpp:397-414 -/
theorem TurnOk.open_round {s : Session n} {h : List (Observation n)} (hs : TurnOk s h)
    (hidle : s.client.status = .idle) (c : Client n) (rid : Fin n) (others : List (Fin n))
    (hsent : (c.status = .reading ∧ others = (List.finRange n).filter (· ≠ rid)) ∨
      c.status = .writing) :
    TurnOk
      { s with
        client := c
        started := true
        round := s.round + 1
        asked := s.asked ++ others.map fun id => (id, s.round + 1)
        submitted := s.submitted ++ [(rid, s.round + 1)] } h := by
  have hnil : s.submitted = [] := by
    apply List.eq_nil_iff_forall_not_mem.mpr
    intro q hq
    rcases (hs.submitted q hq).2 with hstatus | hstatus <;> rw [hidle] at hstatus <;> cases hstatus
  constructor
  · intro q hq
    rcases List.mem_append.mp hq with hold | hnew
    · exact (hs.asked q hold).trans (Nat.le_succ _)
    · obtain ⟨i, -, rfl⟩ := List.mem_map.mp hnew
      exact le_rfl
  · exact fun id r e hmem => (hs.answered id r e hmem).trans (Nat.le_succ _)
  · exact fun i r hi => (hs.filled i r hi).trans (Nat.le_succ _)
  · intro q hq
    rw [hnil, List.nil_append, List.mem_singleton] at hq
    subst hq
    exact ⟨rfl, hsent.imp And.left id⟩
  · rw [hnil, List.nil_append, List.length_singleton]
  · exact fun hnew => absurd hnew (by simp)
  · intro hread
    rcases hsent with ⟨-, rfl⟩ | hwriting
    · constructor
      · exact Nat.succ_pos _
      · intro i
        obtain ⟨hasked, hanswers, -⟩ := hs.next_round i
        rw [hanswers, List.count_append, hasked, hnil, List.nil_append]
        exact (by simpa using (count_others rid i (s.round + 1)).le)
      · intro i e he
        rw [(hs.next_round i).2.1] at he
        cases he
      · exact fun i hi => absurd hi (hs.next_round i).2.2
    · simp [Session.reading, hwriting] at hread
  · exact hs.fresh

/-! ## One event -/

/-- INTERNAL: a client starts with nothing asked and nothing observed. -/
theorem TurnOk.init (data : Bytes) : TurnOk ({ client := { data := data } } : Session n) [] where
  asked := fun _ hq => absurd hq List.not_mem_nil
  answered := fun _ _ _ hmem => absurd hmem List.not_mem_nil
  filled := fun _ _ hnone => absurd hnone (by simp)
  submitted := fun _ hq => absurd hq List.not_mem_nil
  single := Nat.zero_le _
  setup := fun _ => ⟨rfl, rfl⟩
  turn := fun hread => absurd hread (by simp [Session.reading])
  fresh := fun p r epoch hp => by simp at hp

/-- INTERNAL: a connection asks for the guidance in round 0, which is never open.
SOURCE: app/client2.cpp:461-465 -/
theorem TurnOk.connected {s : Session n} {h : List (Observation n)} (hs : TurnOk s h)
    (id : Fin n) : TurnOk { s with asked := s.asked ++ [(id, 0)] } h := by
  refine ⟨?_, hs.answered, hs.filled, hs.submitted, hs.single, hs.setup, ?_, hs.fresh⟩
  · intro q hq
    rcases List.mem_append.mp hq with hold | hnew
    · exact hs.asked q hold
    · rw [List.mem_singleton] at hnew
      subst hnew
      exact Nat.zero_le _
  · intro hread
    obtain ⟨hstarted, honce, hheld, hfilled⟩ := hs.turn hread
    refine ⟨hstarted, fun i => ?_, hheld, hfilled⟩
    have hnone : [(id, 0)].count (i, s.round) = 0 := by
      apply List.count_eq_zero.mpr
      intro hmem
      rw [List.mem_singleton, Prod.mk.injEq] at hmem
      have hpos : 1 ≤ s.round := hstarted
      omega
    rw [List.count_append, hnone, Nat.add_zero]
    exact honce i

/-- INTERNAL: set-up makes the client idle, or leaves it as it is.
SOURCE: app/client2.cpp:553-568 -/
theorem checkSetup_cases {c c' : Client n} {done : Bool} (h : c.checkSetup = .ok (c', done)) :
    c' = c ∨ c'.status = .idle := by
  unfold Client.checkSetup at h
  split_ifs at h with huniform
  · cases h
    exact .inl rfl
  · split at h
    split_ifs at h with hupdated
    cases h
    exact .inr rfl

/-- INTERNAL: set-up is over before the first operation. -/
theorem TurnOk.checkSetup {s : Session n} {h : List (Observation n)} (hs : TurnOk s h)
    (hstarted : s.started = false) {c : Client n} {done : Bool}
    (hc : s.client.checkSetup = .ok (c, done)) : TurnOk { s with client := c } h := by
  rcases checkSetup_cases hc with rfl | hidle
  · exact hs
  · obtain ⟨hnil, -⟩ := hs.setup hstarted
    have hclosed : Session.reading c = false := by
      unfold Session.reading
      rw [hidle]
      rfl
    refine ⟨hs.asked, hs.answered, hs.filled, fun q hq => ?_, hs.single, fun _ => ⟨hnil, hclosed⟩,
      fun hread => ?_, hs.fresh⟩
    · rw [show s.submitted = [] from hnil] at hq
      cases hq
    · rw [hclosed] at hread
      cases hread

/-- INTERNAL: a client whose counters alone change. -/
theorem TurnOk.counted {s : Session n} {h : List (Observation n)} (hs : TurnOk s h)
    {c : Client n} (hstatus : c.status = s.client.status)
    (hcollection : c.oneTurnCollection = s.client.oneTurnCollection) :
    TurnOk { s with client := c, started := true } h := by
  refine ⟨hs.asked, hs.answered, hs.filled, fun q hq => ?_, hs.single,
    fun hnew => absurd hnew (by simp), fun hread => ?_, hs.fresh⟩
  · rw [hstatus]
    exact hs.submitted q hq
  · have hread' : Session.reading s.client := by
      unfold Session.reading at hread ⊢
      rwa [hstatus] at hread
    obtain ⟨hstarted, honce, hheld, hfilled⟩ := hs.turn hread'
    refine ⟨hstarted, honce, ?_, ?_⟩ <;> rw [hcollection]
    · exact hheld
    · exact hfilled

/-- INTERNAL: the requests for the guidance among those sent, and the others. -/
theorem filter_sends (rid : Fin n) (msg : ClientMessage) (others : List (Fin n)) (round : ℕ) :
    ((((rid, Request.operation msg) :: others.map fun id => (id, .getGuidance)).filter
        (·.2 = .getGuidance)).map fun send => (send.1, round)) =
      (others.map fun id => (id, round)) ∧
    ((((rid, Request.operation msg) :: others.map fun id => (id, .getGuidance)).filter
        (·.2 ≠ .getGuidance)).map fun send => (send.1, round)) = [(rid, round)] := by
  constructor <;> simp [List.filter_map, Function.comp_def]

/-- INTERNAL: sending keeps the invariant. SOURCE: app/client2.cpp:350-418 -/
theorem TurnOk.oneSend {cfg : ClientConfig} {s s' : Session n} {h o : List (Observation n)}
    (hs : TurnOk s h) {g : ℕ} (hstep : Session.step cfg s (.oneSend g) = .ok (s', o)) :
    TurnOk s' (h ++ o) := by
  obtain ⟨⟨c, sends⟩, hsend, hrest⟩ := bind_eq_ok.mp hstep
  cases hrest
  rw [List.append_nil]
  rcases oneSend_cases hsend with ⟨rfl, hstatus, hcollection⟩ | ⟨hidle, -, rid, msg, hsent⟩
  · simpa using hs.counted hstatus hcollection
  · rcases hsent with ⟨hreading, rfl⟩ | ⟨hwriting, rfl⟩
    · have hopen := hs.open_round hidle c rid _ (.inl ⟨hreading, rfl⟩)
      obtain ⟨hasked, hsubmitted⟩ := filter_sends rid msg
        ((List.finRange n).filter (· ≠ rid)) (s.round + 1)
      rw [if_neg (List.cons_ne_nil _ _), hasked, hsubmitted]
      exact hopen
    · have hopen := hs.open_round hidle c rid [] (.inr hwriting)
      obtain ⟨hasked, hsubmitted⟩ := filter_sends rid msg [] (s.round + 1)
      rw [List.map_nil] at hasked hsubmitted
      rw [if_neg (List.cons_ne_nil _ _), hasked, hsubmitted]
      exact hopen

/-- INTERNAL: a guidance that a client gets keeps the invariant, whether it answers a request
for the guidance or an operation. SOURCE: app/client2.cpp:482-491 -/
theorem TurnOk.handleGuidance {s : Session n} {h : List (Observation n)} (hs : TurnOk s h)
    {asked submitted : List (Fin n × ℕ)} {id : Fin n} {r : ℕ} (guide : Guidance n)
    (htaken : Taken s asked submitted id r)
    (hfits : NoLeftOver s id r guide.epoch (s.client.status = .waitingGuidance)) :
    TurnOk
      (Session.answer { s with asked := asked, submitted := submitted } id r guide.epoch true
        (s.client.handleGuidance id guide)).1
      (h ++ (Session.answer { s with asked := asked, submitted := submitted } id r guide.epoch
        true (s.client.handleGuidance id guide)).2) := by
  by_cases hwaits : s.client.status = .waitingGuidance
  · -- nothing is submitted while the client waits
    have hnil : submitted = [] := by
      apply List.eq_nil_iff_forall_not_mem.mpr
      intro q hq
      rcases (hs.submitted q (htaken.ofSubmitted q hq)).2 with hstatus | hstatus <;>
        rw [hwaits] at hstatus <;> cases hstatus
    subst hnil
    have hread : Session.reading s.client := by simp [Session.reading, hwaits]
    refine hs.look htaken hread ⟨hfits.1, fun _ => hfits.2 hwaits⟩ ?_
    unfold Client.handleGuidance
    have hstays : (s.client.setGuidance id guide).status = .waitingGuidance := hwaits
    simp only [hstays, if_true]
    split_ifs
    · rfl
    · rw [← hstays]
  · have hkeeps : s.client.handleGuidance id guide = s.client.setGuidance id guide := by
      unfold Client.handleGuidance
      exact if_neg hwaits
    rw [hkeeps]
    exact hs.store htaken hfits.1

/-- INTERNAL: a reply that a client gets keeps the invariant. SOURCE: app/client2.cpp:492-512 -/
theorem TurnOk.handleClientReply {s : Session n} {h : List (Observation n)} (hs : TurnOk s h)
    {asked : List (Fin n × ℕ)} {id : Fin n} {r : ℕ} (msg : ClientReplyMessage n)
    (hstatus : s.client.status = .reading ∨ s.client.status = .writing)
    (htaken : Taken s asked [] id r)
    (hfits : NoLeftOver s id r msg.guidance.epoch (s.client.status = .reading)) :
    TurnOk
      (Session.answer { s with asked := asked, submitted := [] } id r msg.guidance.epoch
        (s.client.status = .reading) (s.client.handleClientReply id msg)).1
      (h ++ (Session.answer { s with asked := asked, submitted := [] } id r msg.guidance.epoch
        (s.client.status = .reading) (s.client.handleClientReply id msg)).2) := by
  rcases hstatus with hreading | hwriting
  · have hread : Session.reading s.client := by simp [Session.reading, hreading]
    simp only [hreading, decide_true]
    refine hs.look htaken hread ⟨hfits.1, fun _ => hfits.2 hreading⟩ ?_
    unfold Client.handleClientReply
    rw [if_pos hreading]
  · have hends : s.client.handleClientReply id msg =
        { s.client.resetTurnCollection with status := .idle } := by
      unfold Client.handleClientReply
      rw [if_neg (by simp [hwriting]), if_pos hwriting]
    rw [hends]
    simp only [hwriting, reduceCtorEq, decide_false]
    exact hs.written htaken hwriting

/-- INTERNAL: **one event keeps the invariant** when no left-over is counted. -/
theorem TurnOk.step {cfg : ClientConfig} {s s' : Session n} {h o : List (Observation n)}
    {event : ClientEvent n} (hs : TurnOk s h) (hfits : CountsFreshAnswers s event)
    (hstep : Session.step cfg s event = .ok (s', o)) : TurnOk s' (h ++ o) := by
  cases event with
  | connected id =>
    cases hstep
    rw [List.append_nil]
    exact hs.connected id
  | checkSetup =>
    simp only [Session.step] at hstep
    split_ifs at hstep with hstarted
    · cases hstep
      rwa [List.append_nil]
    · obtain ⟨⟨c, done⟩, hc, hrest⟩ := bind_eq_ok.mp hstep
      cases hrest
      rw [List.append_nil]
      exact hs.checkSetup (by simpa using hstarted) hc
  | oneSend g => exact hs.oneSend hstep
  | guidance k guide =>
    simp only [Session.step] at hstep
    split at hstep
    · cases hstep
      rwa [List.append_nil]
    · rename_i id r hk
      cases hstep
      exact hs.handleGuidance guide (hs.taken_asked hk) (hfits id r hk)
  | clientReply k msg =>
    simp only [Session.step] at hstep
    split at hstep
    · cases hstep
      rwa [List.append_nil]
    · rename_i id r hk
      cases hstep
      obtain ⟨hnil, hstatus, htaken⟩ := hs.taken_submitted hk
      rw [hnil]
      exact hs.handleClientReply msg hstatus htaken (hfits id r hk)
  | otherEpoch k guide =>
    simp only [Session.step] at hstep
    split at hstep
    · cases hstep
      rwa [List.append_nil]
    · rename_i id r hk
      cases hstep
      obtain ⟨hnil, -, htaken⟩ := hs.taken_submitted hk
      rw [hnil]
      exact hs.handleGuidance guide htaken (hfits id r hk)

/-! ## Runs -/

/-- **Reads are confirmed by their own answers, as long as no left-over is counted.**  Over
every run of a client, from its creation on, in which no answer that the client looks for a
quorum on finds a place that an earlier answer has filled with the epoch the client follows,
and none to an earlier request takes the place of one to the open read: every read that is
over was confirmed by a majority that answered its own requests. -/
theorem reads_freshly_confirmed (cfg : ClientConfig) (data : Bytes)
    (events : List (ClientEvent n)) (s : Session n) (h : List (Observation n))
    (hfresh : Machine.Guarded (Session.step cfg) CountsFreshAnswers
      { client := { data := data } } events)
    (hrun : Machine.run (Session.step cfg) { client := { data := data } } events = .ok (s, h)) :
    FreshlyConfirmed h :=
  (Machine.run_invariant (Session.step cfg)
    (fun _ _ _ _ _ hs hfits hstep => TurnOk.step hs hfits hstep)
    (TurnOk.init data) hfresh hrun).fresh

/-- The configuration of a client that reads once. -/
def readsOnce : ClientConfig where
  isRead := true
  msgNums := 1
  pack := fun _ => []
  packMessage := fun _ => []

/-- A client of three replicas is set up and reads; the two replicas asked for their guidance
answer first, so that the reply finds only answers to this read. -/
theorem reads_freshly_confirmed_by_all :
    ∃ h : List (Observation 3), .readDone 1 1 ∈ h ∧ FreshlyConfirmed h := by
  refine ⟨_, ?_, reads_freshly_confirmed (n := 3) readsOnce []
    [.connected 0, .connected 1, .connected 2,
      .guidance 0 (Guidance.initLocalGuidance {}),
      .guidance 0 (Guidance.initLocalGuidance {}),
      .guidance 0 (Guidance.initLocalGuidance {}),
      .checkSetup, .oneSend 0,
      .guidance 0 (Guidance.initLocalGuidance {}),
      .guidance 0 (Guidance.initLocalGuidance {}),
      .clientReply 0 ⟨0, true, Guidance.initLocalGuidance {}, 0x5499, []⟩] _ _ ?_ rfl⟩
  · decide
  have hanswer : ∀ {s : Session 3} {q : Option (Fin 3 × ℕ)} {id : Fin 3} {r e : ℕ} {looks : Prop},
      q = some (id, r) → NoLeftOver s id r e looks →
        ∀ id' r', q = some (id', r') → NoLeftOver s id' r' e looks := by
    rintro s q id r e looks rfl hfits id' r' hq
    cases hq
    exact hfits
  have hcons := @Machine.guarded_cons _ _ _ _
    (Session.step (n := 3) readsOnce) CountsFreshAnswers
  -- set-up
  refine hcons trivial rfl (hcons trivial rfl (hcons trivial rfl ?_))
  refine hcons (hanswer rfl ⟨by decide, by decide⟩) rfl ?_
  refine hcons (hanswer rfl ⟨by decide, by decide⟩) rfl ?_
  refine hcons (hanswer rfl ⟨by decide, by decide⟩) rfl ?_
  -- the read
  refine hcons trivial rfl (hcons trivial rfl ?_)
  refine hcons (hanswer rfl ⟨by decide, by decide⟩) rfl ?_
  refine hcons (hanswer rfl ⟨by decide, by decide⟩) rfl ?_
  exact hcons (hanswer rfl ⟨by decide, by decide⟩) rfl trivial

/-- A client of three replicas is set up and reads.  The reply of replica 0 is the only
answer to the read, but the answers of the other two to set-up are still in the collection:
the read is over, confirmed by one replica. -/
theorem read_confirmed_by_setup :
    ∃ s : Session 3,
      Machine.run (Session.step readsOnce) { client := { data := [] } }
        [.connected 0, .connected 1, .connected 2,
          .guidance 0 (Guidance.initLocalGuidance {}),
          .guidance 0 (Guidance.initLocalGuidance {}),
          .guidance 0 (Guidance.initLocalGuidance {}),
          .checkSetup, .oneSend 0,
          .clientReply 0 ⟨0, true, Guidance.initLocalGuidance {}, 0x5499, []⟩] =
        .ok (s, [.answered 0 0 1, .answered 1 0 1, .answered 2 0 1, .answered 0 1 1,
          .readDone 1 1]) ∧
      ¬ FreshlyConfirmed (n := 3) [.answered 0 0 1, .answered 1 0 1, .answered 2 0 1,
        .answered 0 1 1, .readDone 1 1] := by
  refine ⟨_, rfl, fun hf => ?_⟩
  obtain ⟨⟨S, hcard, hS⟩, -⟩ := hf 4 1 1 rfl
  -- replica 0 alone has answered a request of round 1
  have honly : ∀ i ∈ S, i = 0 := fun i hi => by simpa using hS i hi
  have hle := Finset.card_le_card fun i hi => Finset.mem_singleton.mpr (honly i hi)
  rw [Finset.card_singleton] at hle
  omega

end MorphlingC.Analysis
