import MorphlingC.Analysis.FrameReads
import MorphlingC.Library.ByteOrder

/-!
# Frames of unknown type

`recv_msg` takes the header of a frame of unknown type and leaves its payload.  The callback
of the peers then drains the buffer, so that the next frame is read from its beginning; the
callback of the clients does not, and takes the payload for the next header.  Frames arrive
one by one here, so that what is drained is the rest of the unknown frame and nothing else.
-/

set_option autoImplicit false

namespace MorphlingC.Analysis

open MorphlingC.Library MorphlingC.Model

/-- A frame with a type byte that is none of the known ones. -/
structure UnknownFrame where
  typeByte : UInt8
  payload : Bytes
  foreign : MessageType.ofByte typeByte = .unknown
  sized : payload.length < 2 ^ 24

/-- The frame on the wire. -/
def UnknownFrame.encode (u : UnknownFrame) : Bytes :=
  leBytes 3 u.payload.length ++ u.typeByte :: u.payload

/-- What is done about a message of unknown type: a line is logged, or a text sent back.
SOURCE: app/server.cpp:174-177, 192-200 -/
def rejects : Dispatch → Bool
  | .unknownType => true
  | .notExpected .unknown => true
  | _ => false

/-- What a callback does about the known frames of a connection. -/
def dispatchedKnown (cb : ReadCallback) (rounds : ℕ) (pieces : List Bytes) :
    Except ReadFault (List Dispatch) :=
  ((cb.run rounds).run [] pieces).map fun result => result.2.filter fun d => !rejects d

/-- The unknown frame is skipped whole: with it the callback does about the known frames, one
frame being there at each event, what it does without it. -/
def SkipsWhole (cb : ReadCallback) (before : List Frame) (u : UnknownFrame)
    (after : List Frame) : Prop :=
  ∀ rounds, dispatchedKnown cb (rounds + 1)
      (before.map Frame.encode ++ u.encode :: after.map Frame.encode) =
    dispatchedKnown cb (rounds + 1) (before.map Frame.encode ++ after.map Frame.encode)

/-! ## One event -/

/-- INTERNAL: reading until nothing is left leaves nothing, whatever the size of the array.
SOURCE: app/utils.cpp:61-66 -/
theorem drainRead_empties {size rounds : ℕ} {buffer : Bytes} (hsize : 0 < size)
    (hrounds : buffer.length < rounds) : drainRead size rounds buffer = .ok [] := by
  induction rounds generalizing buffer with
  | zero => omega
  | succ rounds ih =>
    unfold drainRead buffereventRead
    dsimp only
    rw [List.length_take]
    split
    · have hnone : buffer.length = 0 := by omega
      rw [List.length_eq_zero_iff.mp hnone, List.drop_nil]
    · apply ih
      rw [List.length_drop]
      omega

/-- INTERNAL: `recv_msg` takes the header of a frame of unknown type.
SOURCE: app/utils.cpp:68-85 -/
theorem recvMsg_unknown {capacity : ℕ} (rounds : ℕ) (u : UnknownFrame) (rest : Bytes)
    (hheader : 4 ≤ capacity) :
    recvMsg capacity (rounds + 1) (u.encode ++ rest) = .ok (.unknown, [], u.payload ++ rest) := by
  have hsplit : u.encode ++ rest =
      (leBytes 3 u.payload.length ++ [u.typeByte]) ++ (u.payload ++ rest) := by
    simp [UnknownFrame.encode]
  have hlen : (leBytes 3 u.payload.length ++ [u.typeByte]).length = 4 := by simp
  have hhead : fullRead capacity (rounds + 1) (u.encode ++ rest) 4 =
      .ok (leBytes 3 u.payload.length ++ [u.typeByte], u.payload ++ rest) := by
    rw [fullRead_whole rounds (by rw [hsplit, List.length_append, hlen]; omega) hheader, hsplit,
      List.take_left' hlen, List.drop_left' hlen]
  have htype : (leBytes 3 u.payload.length ++ [u.typeByte]).getD 3 0 = u.typeByte := by
    simp [leBytes]
  unfold recvMsg
  rw [hhead, ok_bind]
  dsimp only
  rw [htype, u.foreign, if_pos rfl]

/-- INTERNAL: an event with a known frame, when nothing was left before it.
SOURCE: app/server.cpp:158-229 -/
theorem known_event (cb : ReadCallback) (rounds : ℕ) {f : Frame}
    (hfits : f.payload.length ≤ recvCapacity) :
    cb.run (rounds + 1) [] f.encode = .ok ([], [cb.dispatch f.msgType f.payload]) :=
  callback_whole cb rounds f [] f.encode [] hfits (List.append_nil _).symm

/-- INTERNAL: an event with a frame that the array does not hold.
SOURCE: app/server.cpp:160, 189 -/
theorem large_event (cb : ReadCallback) (rounds : ℕ) {f : Frame}
    (hlarge : recvCapacity < f.payload.length) : ∃ e, cb.run rounds [] f.encode = .error e := by
  cases h : cb.run rounds [] f.encode with
  | error e => exact ⟨e, rfl⟩
  | ok r =>
    obtain ⟨hfits, -⟩ := (callback_only cb rounds).1 f [] f.encode [] r.1 r.2
      (by rw [List.append_nil]; exact List.prefix_rfl) h
    exact absurd hfits (not_le.mpr hlarge)

/-- INTERNAL: an event with a frame of unknown type. SOURCE: app/server.cpp:158-200 -/
theorem unknown_event (cb : ReadCallback) (rounds : ℕ) (u : UnknownFrame) :
    cb.run (rounds + 1) [] u.encode =
      .ok (if cb.drains then [] else u.payload, [cb.dispatch .unknown []]) := by
  have hrecv := recvMsg_unknown rounds u [] (show 4 ≤ recvCapacity by decide)
  rw [List.append_nil, List.append_nil] at hrecv
  have hdrained : drainRead recvCapacity (u.payload.length + 1) u.payload = .ok [] :=
    drainRead_empties (by decide) (Nat.lt_succ_self _)
  unfold ReadCallback.run
  rw [List.nil_append, hrecv, ok_bind]
  dsimp only
  by_cases hdrains : cb.drains = true
  · rw [if_pos ⟨hdrains, rfl⟩, hdrained, ok_bind, if_pos hdrains]
  · rw [if_neg fun h => hdrains h.1, ok_bind, if_neg hdrains]

/-- INTERNAL: the frames before, one event each: all are dispatched, or one of them does not
fit into the array. -/
theorem known_events (cb : ReadCallback) (rounds : ℕ) (frames : List Frame) :
    ((∀ f ∈ frames, f.payload.length ≤ recvCapacity) ∧
      (cb.run (rounds + 1)).run [] (frames.map Frame.encode) =
        .ok ([], frames.map fun f => cb.dispatch f.msgType f.payload)) ∨
    ((∃ f ∈ frames, recvCapacity < f.payload.length) ∧
      ∃ e, (cb.run (rounds + 1)).run [] (frames.map Frame.encode) = .error e) := by
  induction frames with
  | nil => exact .inl ⟨by simp, rfl⟩
  | cons f frames ih =>
    rw [List.map_cons]
    by_cases hfits : f.payload.length ≤ recvCapacity
    · rw [Machine.run_cons_of_ok _ (known_event cb rounds hfits)]
      rcases ih with ⟨hall, hrun⟩ | ⟨⟨g, hg, hlarge⟩, e, hrun⟩
      · left
        rw [hrun]
        exact ⟨List.forall_mem_cons.mpr ⟨hfits, hall⟩, rfl⟩
      · right
        rw [hrun]
        exact ⟨⟨g, List.mem_cons_of_mem _ hg, hlarge⟩, e, rfl⟩
    · right
      obtain ⟨e, he⟩ := large_event cb (rounds + 1) (not_le.mp hfits)
      exact ⟨⟨f, List.mem_cons_self, not_le.mp hfits⟩, e, Machine.run_cons_of_error _ he⟩

/-! ## What is left behind an unknown frame -/

/-- A callback rejects the messages of unknown type, and no others of that kind. -/
def RejectsUnknown (cb : ReadCallback) : Prop :=
  ∀ t payload, rejects (cb.dispatch t payload) = decide (t = .unknown)

/-- INTERNAL: the callback of the clients does. SOURCE: app/server.cpp:158-178 -/
theorem clientMsgCb_rejects : RejectsUnknown clientMsgCb := by
  intro t payload
  cases t <;> rfl

/-- INTERNAL: the callback of the peers does. SOURCE: app/server.cpp:185-229 -/
theorem peerGeneralMsgCb_rejects : RejectsUnknown peerGeneralMsgCb := by
  intro t payload
  cases t <;> rfl

/-- INTERNAL: a run that returns, with what it has done about the known frames. -/
theorem dispatchedKnown_eq_ok {cb : ReadCallback} {rounds : ℕ} {pieces : List Bytes}
    {ds : List Dispatch} (h : dispatchedKnown cb rounds pieces = .ok ds) :
    ∃ s os, (cb.run rounds).run [] pieces = .ok (s, os) ∧
      os.filter (fun d => !rejects d) = ds := by
  unfold dispatchedKnown at h
  cases hrun : (cb.run rounds).run [] pieces with
  | error e =>
    rw [hrun] at h
    cases h
  | ok r =>
    rw [hrun] at h
    exact ⟨r.1, r.2, rfl, Except.ok.inj h⟩

/-- INTERNAL: frames in front of others are dispatched before them, or all end in the failure
of one that does not fit into the array. -/
theorem dispatchedKnown_behind {cb : ReadCallback} (hcb : RejectsUnknown cb) (rounds : ℕ)
    (frames : List Frame) :
    ((∀ f ∈ frames, f.payload.length ≤ recvCapacity) ∧ ∀ pieces,
      dispatchedKnown cb (rounds + 1) (frames.map Frame.encode ++ pieces) =
        (dispatchedKnown cb (rounds + 1) pieces).map
          ((frames.map fun f => cb.dispatch f.msgType f.payload) ++ ·)) ∨
    ((∃ f ∈ frames, recvCapacity < f.payload.length) ∧ ∃ e, ∀ pieces,
      dispatchedKnown cb (rounds + 1) (frames.map Frame.encode ++ pieces) = .error e) := by
  have hkeep : (frames.map fun f => cb.dispatch f.msgType f.payload).filter
      (fun d => !rejects d) = frames.map fun f => cb.dispatch f.msgType f.payload := by
    rw [List.filter_eq_self]
    intro d hd
    obtain ⟨f, -, rfl⟩ := List.mem_map.mp hd
    rw [hcb, decide_eq_false f.known]
    rfl
  unfold dispatchedKnown
  rcases known_events cb rounds frames with ⟨hall, hrun⟩ | ⟨hlarge, e, hrun⟩
  · refine .inl ⟨hall, fun pieces => ?_⟩
    rw [Machine.run_append_of_ok _ hrun]
    cases (cb.run (rounds + 1)).run [] pieces with
    | error e => rfl
    | ok r => simp only [Except.map, List.filter_append, hkeep]
  · refine .inr ⟨hlarge, e, fun pieces => ?_⟩
    rw [Machine.run_append_of_error _ hrun]
    rfl

/-- INTERNAL: what comes before does not matter when it fits into the array. -/
theorem skipsWhole_behind {cb : ReadCallback} (hcb : RejectsUnknown cb) {before : List Frame}
    (u : UnknownFrame) (after : List Frame)
    (hfits : ∀ f ∈ before, f.payload.length ≤ recvCapacity) :
    SkipsWhole cb before u after ↔ SkipsWhole cb [] u after := by
  apply forall_congr'
  intro rounds
  rcases dispatchedKnown_behind hcb rounds before with ⟨-, h⟩ | ⟨⟨f, hf, hlarge⟩, -⟩
  · rw [h, h, List.map_nil, List.nil_append, List.nil_append]
    constructor
    · intro hsame
      generalize dispatchedKnown cb _ _ = x at hsame ⊢
      generalize dispatchedKnown cb _ _ = y at hsame ⊢
      cases x with
      | error e =>
        cases y with
        | error e' => exact hsame
        | ok ds => cases hsame
      | ok ds =>
        cases y with
        | error e => cases hsame
        | ok ds' =>
          simp only [Except.map, Except.ok.injEq, List.append_cancel_left_eq] at hsame
          rw [hsame]
    · exact congrArg _
  · exact absurd (hfits f hf) (not_le.mpr hlarge)

/-- INTERNAL: behind a frame that does not fit into the array nothing is dispatched in any
case. -/
theorem skipsWhole_of_large {cb : ReadCallback} (hcb : RejectsUnknown cb) {before : List Frame}
    (u : UnknownFrame) (after : List Frame)
    (hlarge : ∃ f ∈ before, recvCapacity < f.payload.length) : SkipsWhole cb before u after := by
  intro rounds
  rcases dispatchedKnown_behind hcb rounds before with ⟨hall, -⟩ | ⟨-, e, h⟩
  · obtain ⟨f, hf, hbig⟩ := hlarge
    exact absurd (hall f hf) (not_le.mpr hbig)
  · rw [h, h]

/-- INTERNAL: an unknown frame of which nothing is left is skipped whole. -/
theorem skipsWhole_of_clean {cb : ReadCallback} (hcb : RejectsUnknown cb) (before : List Frame)
    {u : UnknownFrame} (after : List Frame) (hclean : cb.drains = true ∨ u.payload = []) :
    SkipsWhole cb before u after := by
  by_cases hfits : ∀ f ∈ before, f.payload.length ≤ recvCapacity
  · rw [skipsWhole_behind hcb u after hfits]
    intro rounds
    have hleft : (if cb.drains then [] else u.payload) = [] := by
      rcases hclean with h | h
      · rw [if_pos h]
      · rw [h, ite_self]
    have hevent := unknown_event cb rounds u
    rw [hleft] at hevent
    have hreject : rejects (cb.dispatch .unknown []) = true := hcb _ _
    unfold dispatchedKnown
    rw [List.map_nil, List.nil_append, List.nil_append, Machine.run_cons_of_ok _ hevent]
    cases (cb.run (rounds + 1)).run [] (after.map Frame.encode) with
    | error e => rfl
    | ok r => simp [Except.map, hreject]
  · push Not at hfits
    exact skipsWhole_of_large hcb u after hfits

/-- INTERNAL: the type that `recv_msg` returns is in the fourth byte.
SOURCE: app/utils.cpp:76 -/
theorem recvMsg_type {capacity rounds : ℕ} {buffer payload rest : Bytes} {t : MessageType}
    (h : recvMsg capacity rounds buffer = .ok (t, payload, rest)) :
    t = .ofByte (buffer.getD 3 0) := by
  unfold recvMsg at h
  obtain ⟨⟨header, left⟩, hhead, h⟩ := bind_eq_ok.mp h
  obtain ⟨-, -, rfl, rfl⟩ := fullRead_ok hhead
  have hbyte : (buffer.take 4).getD 3 0 = buffer.getD 3 0 := by
    rw [List.getD_eq_getElem?_getD, List.getD_eq_getElem?_getD,
      List.getElem?_take_of_lt (by decide)]
  dsimp only at h
  rw [hbyte] at h
  split at h
  · rename_i htype
    cases h
    exact htype.symm
  · obtain ⟨r, -, h⟩ := bind_eq_ok.mp h
    cases h
    rfl

/-- An operation of which nothing is sent: the shortest message of its type. -/
def emptyOperationFrame : Frame := ⟨.client, [], nofun, Nat.two_pow_pos 24⟩

/-- INTERNAL: bytes that are left make one of two frames that may follow look like another
one: the type is then read among these bytes or in the size of the frame.
SOURCE: app/server.cpp:158-178 -/
theorem taken_for_another {left : Bytes} (hleft : left ≠ []) :
    ∃ f : Frame, f.payload.length ≤ recvCapacity ∧
      ∀ payload, clientMsgCb.dispatch (.ofByte ((left ++ f.encode).getD 3 0)) payload ≠
        clientMsgCb.dispatch f.msgType f.payload := by
  rcases left with _ | ⟨a, _ | ⟨b, _ | ⟨c, _ | ⟨d, left⟩⟩⟩⟩
  · exact absurd rfl hleft
  -- up to three bytes: the type is a byte of the size, which is zero
  · exact ⟨getGuidanceFrame, by decide, fun _ h => by cases h⟩
  · exact ⟨getGuidanceFrame, by decide, fun _ h => by cases h⟩
  · exact ⟨getGuidanceFrame, by decide, fun _ h => by cases h⟩
  · -- four bytes or more are a header
    by_cases htype : MessageType.ofByte d = .getGuidance
    · refine ⟨emptyOperationFrame, by decide, fun payload h => ?_⟩
      change clientMsgCb.dispatch (.ofByte d) payload = _ at h
      rw [htype] at h
      cases h
    · refine ⟨getGuidanceFrame, by decide, fun payload h => htype ?_⟩
      change clientMsgCb.dispatch (.ofByte d) payload = .getGuidance at h
      cases ht : MessageType.ofByte d <;> rw [ht] at h <;> first | rfl | cases h

/-- INTERNAL: what is left of an unknown frame disturbs some frame behind it.
SOURCE: app/server.cpp:158-178 -/
theorem not_skipsWhole_of_left {u : UnknownFrame} (hleft : u.payload ≠ []) :
    ∃ f, ¬ SkipsWhole clientMsgCb [] u [f] := by
  obtain ⟨f, hf, hother⟩ := taken_for_another hleft
  refine ⟨f, fun hskips => ?_⟩
  have hwithout : dispatchedKnown clientMsgCb 1 [f.encode] =
      .ok [clientMsgCb.dispatch f.msgType f.payload] := by
    have hkeep : rejects (clientMsgCb.dispatch f.msgType f.payload) = false := by
      rw [clientMsgCb_rejects, decide_eq_false f.known]
    unfold dispatchedKnown
    rw [Machine.run_cons_of_ok _ (known_event clientMsgCb 0 hf)]
    simp [Except.map, hkeep]
  have hsame : dispatchedKnown clientMsgCb 1 [u.encode, f.encode] =
      .ok [clientMsgCb.dispatch f.msgType f.payload] := (hskips 0).trans hwithout
  obtain ⟨s, os, hrun, hkept⟩ := dispatchedKnown_eq_ok hsame
  obtain ⟨buffer, o, os, hfirst, hrest, rfl⟩ := (Machine.run_cons_ok _).mp hrun
  obtain ⟨buffer', o', os, hnext, hnil, rfl⟩ := (Machine.run_cons_ok _).mp hrest
  cases hnil
  cases (unknown_event clientMsgCb 0 u).symm.trans hfirst
  -- the second event reads a header in what is left and in the frame
  obtain ⟨⟨t, payload, rest⟩, hrecv, hnext⟩ := bind_eq_ok.mp hnext
  cases hnext
  have htype : t = .ofByte ((u.payload ++ f.encode).getD 3 0) := recvMsg_type hrecv
  have hreject : rejects (clientMsgCb.dispatch .unknown []) = true := rfl
  rw [List.append_nil, List.singleton_append, List.filter_cons_of_neg (by simp [hreject])]
    at hkept
  have hone : clientMsgCb.dispatch t payload = clientMsgCb.dispatch f.msgType f.payload := by
    have hmem : clientMsgCb.dispatch f.msgType f.payload ∈
        [clientMsgCb.dispatch t payload].filter (fun d => !rejects d) := by
      rw [hkept]
      exact List.mem_singleton_self _
    exact (List.mem_singleton.mp (List.mem_of_mem_filter hmem)).symm
  rw [htype] at hone
  exact hother payload hone

/-! ## Skipping an unknown frame -/

/-- **An unknown frame is skipped whole by the callback of the peers, and by that of the
clients if and only if it has no payload.**  For every list of frames before it, the
callback of the clients dispatches the frames behind it as it would without it, whatever
they are, exactly when nothing of the unknown frame is left in the buffer after its header;
the one exception is that a frame before it has already overrun the array. -/
theorem unknown_skipped_iff (before : List Frame) (u : UnknownFrame) :
    (∀ after, SkipsWhole peerGeneralMsgCb before u after) ∧
      ((∀ after, SkipsWhole clientMsgCb before u after) ↔
        u.payload = [] ∨ ∃ f ∈ before, recvCapacity < f.payload.length) := by
  constructor
  · intro after
    exact skipsWhole_of_clean peerGeneralMsgCb_rejects before after (.inl rfl)
  · constructor
    · intro hskips
      by_contra hnot
      push Not at hnot
      obtain ⟨hleft, hfits⟩ := hnot
      obtain ⟨f, hf⟩ := not_skipsWhole_of_left hleft
      exact hf ((skipsWhole_behind clientMsgCb_rejects u [f] hfits).mp (hskips [f]))
    · rintro (hempty | hlarge) after
      · exact skipsWhole_of_clean clientMsgCb_rejects before after (.inr hempty)
      · exact skipsWhole_of_large clientMsgCb_rejects u after hlarge

/-- INTERNAL: `recv_msg` does not return when the header announces more than there is.
SOURCE: app/utils.cpp:68-91 -/
theorem recvMsg_ne_ok_of_short {capacity rounds : ℕ} {buffer : Bytes}
    {r : MessageType × Bytes × Bytes} (hknown : MessageType.ofByte (buffer.getD 3 0) ≠ .unknown)
    (hshort : buffer.length < 4 + payloadSize (buffer.take 4)) :
    recvMsg capacity rounds buffer ≠ .ok r := by
  intro h
  have htype : r.1 = .ofByte (buffer.getD 3 0) := recvMsg_type h
  unfold recvMsg at h
  obtain ⟨⟨header, left⟩, hhead, h⟩ := bind_eq_ok.mp h
  obtain ⟨hfour, -, rfl, rfl⟩ := fullRead_ok hhead
  dsimp only at h
  split at h
  · cases h
    exact hknown htype.symm
  · obtain ⟨⟨body, left⟩, hbody, -⟩ := bind_eq_ok.mp h
    obtain ⟨hsize, -⟩ := fullRead_ok hbody
    rw [List.length_drop] at hsize
    omega

/-- A frame of type 9 with a payload of one byte. -/
def strayFrame : UnknownFrame := ⟨9, [7], by decide, by decide⟩

/-- An unknown frame with a payload of one byte, and a request behind it: the byte becomes the
first one of a header that announces more than there is, and the callback does not return. -/
theorem request_lost_behind_unknown :
    (clientMsgCb.run 1).run [] [getGuidanceFrame.encode] = .ok ([], [.getGuidance]) ∧
      ¬ ReadsReturn clientMsgCb [strayFrame.encode, getGuidanceFrame.encode] ∧
      ¬ SkipsWhole clientMsgCb [] strayFrame [getGuidanceFrame] := by
  refine ⟨by decide, ?_, ?_⟩
  · rintro ⟨rounds, buffer, dispatched, hrun⟩
    obtain ⟨left, o, os, hfirst, hrest, -⟩ := (Machine.run_cons_ok _).mp hrun
    obtain ⟨_, _, _, hnext, -, -⟩ := (Machine.run_cons_ok _).mp hrest
    cases rounds with
    | zero => cases hfirst
    | succ rounds =>
      cases (unknown_event clientMsgCb rounds strayFrame).symm.trans hfirst
      obtain ⟨r, hrecv, -⟩ := bind_eq_ok.mp hnext
      have hbuffer : (if clientMsgCb.drains then [] else strayFrame.payload) ++
          getGuidanceFrame.encode = [7, 0, 0, 0, 5] := by decide
      rw [hbuffer] at hrecv
      exact recvMsg_ne_ok_of_short (by decide) (by decide) hrecv
  · intro hskips
    have hsame := hskips 0
    revert hsame
    decide

end MorphlingC.Analysis
