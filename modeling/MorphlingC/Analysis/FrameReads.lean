import MorphlingC.Library.Intake
import MorphlingC.Model.Framing

/-!
# One frame per read event

A read callback calls `recv_msg` once, whatever has arrived.  Frames that arrive together
are taken one per event, so that all but the first are left in the buffer until more data
comes; and a frame that has not arrived as a whole when its event comes keeps `full_read` in
its loop for good.

Both rest on what `recv_msg` does with the next frame of a stream: it takes it if it is
there as a whole (`recvMsg_whole`), and it returns in no other case (`recvMsg_only`).
-/

set_option autoImplicit false

namespace MorphlingC.Analysis

open MorphlingC.Library MorphlingC.Model

/-! ## `full_read` -/

/-- INTERNAL: a `full_read` that returns has found all the bytes asked for, with room for
them. SOURCE: app/utils.cpp:50-59 -/
theorem fullRead_ok {capacity rounds size : ℕ} {buffer got rest : Bytes}
    (h : fullRead capacity rounds buffer size = .ok (got, rest)) :
    size ≤ buffer.length ∧ size ≤ capacity ∧ got = buffer.take size ∧
      rest = buffer.drop size := by
  induction rounds generalizing capacity size buffer got with
  | zero =>
    cases size with
    | zero =>
      cases h
      exact ⟨Nat.zero_le _, Nat.zero_le _, rfl, rfl⟩
    | succ n => cases h
  | succ rounds ih =>
    cases size with
    | zero =>
      cases h
      exact ⟨Nat.zero_le _, Nat.zero_le _, rfl, rfl⟩
    | succ n =>
      unfold fullRead buffereventRead at h
      dsimp only at h
      split at h
      · cases h
      · rename_i hroom
        obtain ⟨⟨others, left⟩, hothers, heq⟩ := bind_eq_ok.mp h
        simp only [Except.ok.injEq, Prod.mk.injEq] at heq
        obtain ⟨rfl, rfl⟩ := heq
        obtain ⟨hsize, -, rfl, rfl⟩ := ih hothers
        -- the second round finds an empty buffer unless the first one has read all
        rw [List.length_take, List.length_drop] at hsize
        rw [List.length_take] at hroom
        have hall : n + 1 ≤ buffer.length := by omega
        have hnone : n + 1 - (buffer.take (n + 1)).length = 0 := by
          rw [List.length_take]
          omega
        rw [hnone, List.take_zero, List.drop_zero, List.append_nil]
        exact ⟨hall, by omega, rfl, rfl⟩

/-- INTERNAL: `full_read` reads what is there in its first round. SOURCE: app/utils.cpp:50-59 -/
theorem fullRead_whole {capacity size : ℕ} {buffer : Bytes} (rounds : ℕ)
    (hsize : size ≤ buffer.length) (hroom : size ≤ capacity) :
    fullRead capacity (rounds + 1) buffer size =
      .ok (buffer.take size, buffer.drop size) := by
  cases size with
  | zero => rfl
  | succ n =>
    have hlen : (buffer.take (n + 1)).length = n + 1 := by
      rw [List.length_take]
      omega
    unfold fullRead buffereventRead
    dsimp only
    rw [if_neg (by omega), hlen, Nat.sub_self]
    cases rounds with
    | zero => simp [fullRead]
    | succ rounds => simp [fullRead]

/-! ## Frames -/

@[simp] theorem frameHeader_length (msgType : MessageType) (size : ℕ) :
    (frameHeader msgType size).length = 4 := by
  simp [frameHeader]

@[simp] theorem encode_length (f : Frame) : f.encode.length = 4 + f.payload.length := by
  simp [Frame.encode]

/-- INTERNAL: the size in the header of a frame is that of its payload.
SOURCE: app/server.cpp:52-56, app/utils.cpp:71-75 -/
theorem payloadSize_frameHeader {size : ℕ} (msgType : MessageType) (h : size < 2 ^ 24) :
    payloadSize (frameHeader msgType size) = size := by
  have hbytes : payloadSize (frameHeader msgType size) =
      ((size % 256) ||| ((size / 256 % 256) <<< 8)) ||| ((size / 65536 % 256) <<< 16) := by
    simp [payloadSize, frameHeader, List.range_succ, Nat.shiftRight_eq_div_pow]
  have hlow : (size % 256) ||| ((size / 256 % 256) <<< 8) =
      (size / 256 % 256) <<< 8 + size % 256 := by
    rw [Nat.or_comm, Nat.shiftLeft_add_eq_or_of_lt (by omega)]
  rw [hbytes, hlow, Nat.or_comm, ← Nat.shiftLeft_add_eq_or_of_lt]
  · rw [Nat.shiftLeft_eq, Nat.shiftLeft_eq]
    omega
  · rw [Nat.shiftLeft_eq]
    omega

/-- INTERNAL: the type in the header of a frame. SOURCE: app/server.cpp:56, app/utils.cpp:76 -/
theorem frameHeader_type (msgType : MessageType) (size : ℕ) :
    MessageType.ofByte ((frameHeader msgType size).getD 3 0) = msgType := by
  simp [frameHeader, List.range_succ]

/-! ## `recv_msg` -/

/-- **`recv_msg` takes a frame that is there as a whole**, if there is room for it.
SOURCE: app/utils.cpp:68-91 -/
theorem recvMsg_whole {capacity : ℕ} (rounds : ℕ) {f : Frame} {rest : Bytes}
    (hheader : 4 ≤ capacity) (hroom : f.payload.length ≤ capacity) :
    recvMsg capacity (rounds + 1) (f.encode ++ rest) = .ok (f.msgType, f.payload, rest) := by
  have hhead : fullRead capacity (rounds + 1) (f.encode ++ rest) 4 =
      .ok (frameHeader f.msgType f.payload.length, f.payload ++ rest) := by
    rw [fullRead_whole rounds (by simp only [List.length_append, encode_length]; omega) hheader,
      Frame.encode, List.append_assoc, List.take_left' (frameHeader_length _ _),
      List.drop_left' (frameHeader_length _ _)]
  have hbody : fullRead capacity (rounds + 1) (f.payload ++ rest) f.payload.length =
      .ok (f.payload, rest) := by
    rw [fullRead_whole rounds (by simp) hroom, List.take_left, List.drop_left]
  unfold recvMsg
  rw [hhead, ok_bind]
  dsimp only
  rw [frameHeader_type, if_neg f.known, payloadSize_frameHeader _ f.sized, hbody]
  rfl

/-- **`recv_msg` returns in no other case**: what is on the stream is a frame, so what it
returns is this frame, which was there as a whole. SOURCE: app/utils.cpp:68-91 -/
theorem recvMsg_only {capacity rounds : ℕ} {f : Frame} {buffer more payload rest : Bytes}
    {msgType : MessageType} (hstream : buffer <+: f.encode ++ more)
    (h : recvMsg capacity rounds buffer = .ok (msgType, payload, rest)) :
    f.payload.length ≤ capacity ∧ buffer = f.encode ++ rest ∧ msgType = f.msgType ∧
      payload = f.payload := by
  unfold recvMsg at h
  obtain ⟨⟨header, left⟩, hhead, h⟩ := bind_eq_ok.mp h
  obtain ⟨hfour, -, rfl, rfl⟩ := fullRead_ok hhead
  -- the first four bytes are the header of the frame
  have hsplit : buffer.take 4 ++ buffer.drop 4 <+:
      frameHeader f.msgType f.payload.length ++ (f.payload ++ more) := by
    rw [List.take_append_drop, ← List.append_assoc]
    exact hstream
  have hheader : buffer.take 4 = frameHeader f.msgType f.payload.length := by
    apply List.prefix_of_prefix_length_le ((List.prefix_append _ _).trans hsplit)
      (List.prefix_append _ _) (by simp) |>.eq_of_length
    simp [hfour]
  rw [hheader, List.prefix_append_right_inj] at hsplit
  dsimp only at h
  rw [hheader, frameHeader_type, if_neg f.known, payloadSize_frameHeader _ f.sized] at h
  obtain ⟨⟨body, left⟩, hbody, h⟩ := bind_eq_ok.mp h
  obtain ⟨hsize, hroom, rfl, rfl⟩ := fullRead_ok hbody
  -- and the payload of the frame follows
  have hpayload : f.payload <+: buffer.drop 4 :=
    List.prefix_of_prefix_length_le (List.prefix_append _ _) hsplit hsize
  obtain ⟨others, hothers⟩ := hpayload
  rw [← hothers, List.take_left, List.drop_left] at h
  cases h
  refine ⟨hroom, ?_, rfl, rfl⟩
  rw [Frame.encode, ← hheader, List.append_assoc, hothers, List.take_append_drop]

/-! ## The callbacks as readers of a stream -/

/-- How frames are written, those that the array of a callback holds, and what a callback
makes of a frame. -/
def frameScript (cb : ReadCallback) : Script UInt8 Frame Dispatch where
  write := Frame.encode
  readable f := f.payload.length ≤ recvCapacity
  made f := cb.dispatch f.msgType f.payload

/-- INTERNAL: a frame that has arrived as a whole is dispatched. -/
theorem callback_whole (cb : ReadCallback) (rounds : ℕ) :
    (frameScript cb).Whole (cb.run (rounds + 1)) := by
  intro f buffer piece rest hread harrived
  unfold ReadCallback.run
  rw [harrived]
  simp only [frameScript] at hread ⊢
  rw [recvMsg_whole rounds (by decide) hread, ok_bind]
  dsimp only
  rw [if_neg (fun h => f.known h.2), ok_bind]

/-- INTERNAL: nothing else is dispatched. -/
theorem callback_only (cb : ReadCallback) (rounds : ℕ) :
    (frameScript cb).Only (cb.run rounds) := by
  constructor
  · intro f buffer piece more s os hstream h
    obtain ⟨⟨msgType, payload, rest⟩, hrecv, h⟩ := bind_eq_ok.mp h
    obtain ⟨hroom, hbuffer, rfl, rfl⟩ := recvMsg_only hstream hrecv
    dsimp only at h
    rw [if_neg (fun h => f.known h.2)] at h
    cases h
    exact ⟨hroom, hbuffer, rfl⟩
  · intro s os h
    obtain ⟨⟨msgType, payload, rest⟩, hrecv, -⟩ := bind_eq_ok.mp h
    obtain ⟨⟨header, left⟩, hhead, -⟩ := bind_eq_ok.mp hrecv
    obtain ⟨hfour, -⟩ := fullRead_ok hhead
    simp at hfour

/-! ## Frames that arrive together -/

/-- One callback has run for each chunk of whole frames, and what has been dispatched is
every frame that has arrived, once and in order. -/
def DispatchesAll (cb : ReadCallback) (chunks : List (List Frame)) : Prop :=
  ∃ rounds buffer, (cb.run rounds).run [] (chunks.map (·.flatMap Frame.encode)) =
    .ok (buffer, chunks.flatten.map fun f => cb.dispatch f.msgType f.payload)

/-- INTERNAL: the request for a guidance, a header without a payload.
SOURCE: app/utils.cpp:44-48 -/
def getGuidanceFrame : Frame := ⟨.getGuidance, [], by decide, by decide⟩

/-- INTERNAL: lists that are not empty, no more elements than lists: one in each. -/
theorem singletons_of_length_le {chunks : List (List Frame)} (hne : ∀ c ∈ chunks, c ≠ [])
    (h : chunks.flatten.length ≤ chunks.length) : ∀ c ∈ chunks, ∃ f, c = [f] := by
  induction chunks with
  | nil =>
    intro c hc
    cases hc
  | cons d chunks ih =>
    have hrest : ∀ c ∈ chunks, c ≠ [] := fun c hc => hne c (List.mem_cons_of_mem _ hc)
    have hmany : chunks.length ≤ chunks.flatten.length := by
      rw [List.length_flatten, ← List.length_map List.length]
      apply List.length_le_sum_of_one_le
      intro size hsize
      obtain ⟨c, hc, rfl⟩ := List.mem_map.mp hsize
      exact List.length_pos_iff.mpr (hrest c hc)
    have hd := List.length_pos_iff.mpr (hne d List.mem_cons_self)
    rw [List.flatten_cons, List.length_append, List.length_cons] at h
    intro c hc
    rcases List.mem_cons.mp hc with rfl | hc
    · exact List.length_eq_one_iff.mp (by omega)
    · exact ih hrest (by omega) c hc

/-- INTERNAL: frames that arrive one by one are all dispatched, if the array holds them. -/
theorem dispatchesAll_of_single {cb : ReadCallback} {chunks : List (List Frame)}
    (h : ∀ c ∈ chunks, ∃ f, c = [f] ∧ f.payload.length ≤ recvCapacity) :
    DispatchesAll cb chunks := by
  obtain ⟨frames, rfl⟩ : ∃ frames : List Frame, chunks = frames.map fun f => [f] := by
    refine ⟨chunks.flatten, ?_⟩
    induction chunks with
    | nil => rfl
    | cons c chunks ih =>
      obtain ⟨f, rfl, -⟩ := h c List.mem_cons_self
      have hrest := ih fun c hc => h c (List.mem_cons_of_mem _ hc)
      rw [List.flatten_cons, List.singleton_append, List.map_cons, ← hrest]
  have hread : ∀ f ∈ frames, (frameScript cb).readable f := by
    intro f hf
    obtain ⟨f', heq, hroom⟩ := h [f] (List.mem_map_of_mem hf)
    cases heq
    exact hroom
  have hpieces : (frames.map fun f => [f]).map (·.flatMap Frame.encode) =
      frames.map (frameScript cb).write := by
    simp [frameScript]
  have hflat : (frames.map fun f => [f]).flatten = frames := by
    rw [← List.flatMap_def, List.flatMap_singleton']
  have hstream : [] ++ (frames.map (frameScript cb).write).flatten <+:
      (frameScript cb).writeAll frames := by
    rw [List.nil_append, ← List.flatMap_def]
    exact List.prefix_rfl
  obtain ⟨buffer, hrun⟩ := (frameScript cb).run_of_keepsUp (callback_whole cb 0) hstream
    ((frameScript cb).keepsUp_map_write hread)
  refine ⟨1, buffer, ?_⟩
  rw [hpieces, hflat, hrun, List.length_map, List.take_length]
  rfl

/-- INTERNAL: if all frames have been dispatched, each chunk was one frame that the array
holds. -/
theorem single_of_dispatchesAll {cb : ReadCallback} {chunks : List (List Frame)}
    (hne : ∀ c ∈ chunks, c ≠ []) (h : DispatchesAll cb chunks) :
    ∀ c ∈ chunks, ∃ f, c = [f] ∧ f.payload.length ≤ recvCapacity := by
  obtain ⟨rounds, buffer, hrun⟩ := h
  have hstream : [] ++ (chunks.map (·.flatMap Frame.encode)).flatten <+:
      (frameScript cb).writeAll chunks.flatten := by
    rw [List.nil_append, ← List.flatMap_def, Script.writeAll, List.flatten_eq_flatMap,
      List.flatMap_assoc]
    exact List.prefix_rfl
  obtain ⟨hkeeps, hmade⟩ := (frameScript cb).keepsUp_of_run (callback_only cb rounds) hstream hrun
  -- one frame per event has been dispatched
  have hfew : chunks.flatten.length ≤ chunks.length := by
    have hlen := congrArg List.length hmade
    simp only [List.length_map, List.length_take] at hlen
    omega
  intro c hc
  obtain ⟨f, rfl⟩ := singletons_of_length_le hne hfew c hc
  obtain ⟨k, hk⟩ := List.mem_iff_getElem?.mp (List.mem_flatten.mpr ⟨[f], hc, List.mem_cons_self⟩)
  obtain ⟨f', hf', hroom, -⟩ := hkeeps k (by
    rw [List.length_map]
    exact (List.getElem?_eq_some_iff.mp hk).1.trans_le hfew)
  rw [hk, Option.some.injEq] at hf'
  exact ⟨f, rfl, hf' ▸ hroom⟩

/-- **All frames are dispatched as they arrive if and only if they arrive one by one.**  For
each of the callbacks and every way of delivering frames in chunks of whole frames: after
every chunk all frames that have arrived have been dispatched, once and in order, exactly
when each chunk is a single frame, of at most the size of the array it is read into. -/
theorem every_frame_dispatched_iff (cb : ReadCallback) (chunks : List (List Frame))
    (hne : ∀ c ∈ chunks, c ≠ []) :
    (∀ k ≤ chunks.length, DispatchesAll cb (chunks.take k)) ↔
      ∀ c ∈ chunks, ∃ f, c = [f] ∧ f.payload.length ≤ recvCapacity := by
  constructor
  · intro h
    apply single_of_dispatchesAll hne
    have hall := h chunks.length (Nat.le_refl _)
    rwa [List.take_length] at hall
  · intro h k _
    apply dispatchesAll_of_single
    intro c hc
    exact h c (List.mem_of_mem_take hc)

/-- Two requests, each in its own chunk. -/
theorem every_frame_dispatched_one_by_one :
    DispatchesAll clientMsgCb [[getGuidanceFrame], [getGuidanceFrame]] :=
  (every_frame_dispatched_iff clientMsgCb [[getGuidanceFrame], [getGuidanceFrame]]
    (by simp)).mpr (by
      intro c hc
      refine ⟨getGuidanceFrame, ?_, by decide⟩
      simpa using hc) 2 (Nat.le_refl 2)

/-- INTERNAL: two frames in one chunk are not both dispatched, by any callback. -/
theorem not_dispatchesAll_pair (cb : ReadCallback) (f g : Frame) :
    ¬ DispatchesAll cb [[f, g]] := by
  intro h
  obtain ⟨f', heq, -⟩ := single_of_dispatchesAll (by simp) h [f, g] (by simp)
  simp at heq

/-- Two requests that arrive together: the second one stays in the buffer.  The other callbacks
read in the same way. -/
theorem second_frame_left :
    (clientMsgCb.run 1).run [] [getGuidanceFrame.encode ++ getGuidanceFrame.encode] =
        .ok (getGuidanceFrame.encode, [.getGuidance]) ∧
      ¬ DispatchesAll clientMsgCb [[getGuidanceFrame, getGuidanceFrame]] ∧
      ¬ DispatchesAll peerGeneralMsgCb [[getGuidanceFrame, getGuidanceFrame]] ∧
      ¬ DispatchesAll handleReply [[getGuidanceFrame, getGuidanceFrame]] :=
  ⟨by decide, not_dispatchesAll_pair _ _ _, not_dispatchesAll_pair _ _ _,
    not_dispatchesAll_pair _ _ _⟩

/-! ## Frames that arrive in parts -/

/-- Every callback returns: within some number of rounds for each `full_read`, there is a
result of the whole run. -/
def ReadsReturn (cb : ReadCallback) (pieces : List Bytes) : Prop :=
  ∃ rounds buffer dispatched, (cb.run rounds).run [] pieces = .ok (buffer, dispatched)

/-- **Every read returns if and only if the frames keep up with the events.**  For each of
the callbacks, every stream of frames and every way of cutting what has arrived of it into
read events: all calls of `recv_msg` return exactly when for each event there has arrived by
then one more whole frame, of at most the size of the array it is read into. -/
theorem reads_return_iff (cb : ReadCallback) (frames : List Frame) (pieces : List Bytes)
    (hstream : pieces.flatten <+: frames.flatMap Frame.encode) :
    ReadsReturn cb pieces ↔
      ∀ k < pieces.length, ∃ f, frames[k]? = some f ∧ f.payload.length ≤ recvCapacity ∧
        ((frames.take (k + 1)).flatMap Frame.encode).length ≤
          (pieces.take (k + 1)).flatten.length := by
  have hkeeps : (frameScript cb).KeepsUp frames 0 pieces ↔
      ∀ k < pieces.length, ∃ f, frames[k]? = some f ∧ f.payload.length ≤ recvCapacity ∧
        ((frames.take (k + 1)).flatMap Frame.encode).length ≤
          (pieces.take (k + 1)).flatten.length := by
    unfold Script.KeepsUp
    simp only [Nat.zero_add]
    exact Iff.rfl
  rw [← hkeeps]
  constructor
  · rintro ⟨rounds, buffer, dispatched, hrun⟩
    exact ((frameScript cb).keepsUp_of_run (callback_only cb rounds) hstream hrun).1
  · intro h
    have hfrom : [] ++ pieces.flatten <+: (frameScript cb).writeAll frames := hstream
    obtain ⟨buffer, hrun⟩ := (frameScript cb).run_of_keepsUp (callback_whole cb 0) hfrom h
    exact ⟨1, buffer, _, hrun⟩

/-- A request and what has arrived of the next one, which its own event completes. -/
theorem reads_return_ahead :
    ReadsReturn clientMsgCb [[0, 0, 0, 5, 0, 0], [0, 5]] := by
  refine (reads_return_iff clientMsgCb [getGuidanceFrame, getGuidanceFrame]
    [[0, 0, 0, 5, 0, 0], [0, 5]] (by decide)).mpr ?_
  intro k hk
  have hcases : k = 0 ∨ k = 1 := by
    simp only [List.length_cons, List.length_nil] at hk
    omega
  rcases hcases with rfl | rfl
  · exact ⟨getGuidanceFrame, rfl, by decide, by decide⟩
  · exact ⟨getGuidanceFrame, rfl, by decide, by decide⟩

/-- INTERNAL: less than a header has arrived: `full_read` asks for the rest of it again and
again. SOURCE: app/utils.cpp:50-59, 68-70 -/
theorem not_readsReturn_of_short (cb : ReadCallback) {piece : Bytes} (pieces : List Bytes)
    (hshort : piece.length < 4) : ¬ ReadsReturn cb (piece :: pieces) := by
  rintro ⟨rounds, buffer, dispatched, hrun⟩
  obtain ⟨_, _, _, hstep, -, -⟩ := (cb.run rounds).run_cons_ok.mp hrun
  obtain ⟨_, hrecv, -⟩ := bind_eq_ok.mp hstep
  obtain ⟨_, hhead, -⟩ := bind_eq_ok.mp hrecv
  obtain ⟨hfour, -⟩ := fullRead_ok hhead
  rw [List.nil_append] at hfour
  omega

/-- Half a header has arrived, at a client's connection or at a peer's. -/
theorem half_a_header :
    [[0, 0], [0, 5]].flatten = getGuidanceFrame.encode ∧
      ¬ ReadsReturn clientMsgCb [[0, 0], [0, 5]] ∧
      ¬ ReadsReturn peerGeneralMsgCb [[0, 0], [0, 5]] :=
  ⟨by decide, not_readsReturn_of_short _ _ (by decide),
    not_readsReturn_of_short _ _ (by decide)⟩

end MorphlingC.Analysis
