import ContextCompaction.Protocol.Framing

/-!
# Frames in chunks

The decoder takes a chunk as a machine takes its bytes that knows only the bytes of the frame that has
not ended.

* `frameStep`: that machine. `feed_frames`: it splits frames.
* `Pending`: the decoder and the bytes of the frame that has not ended. `push_pending`: a chunk is its
  bytes.
* `framing_chunks`: the frames of a stream do not depend on its chunks.
-/

namespace Framing

open Js Streams

/-! ## Bytes -/

theorem length_setBytes {target source : List UInt8} {offset : Nat}
    (h : offset + source.length ≤ target.length) :
    (setBytes target source offset).length = target.length := by
  simp only [setBytes, List.length_append, List.length_take, List.length_drop]
  omega

theorem take_setBytes {target source : List UInt8} {offset : Nat}
    (h : offset + source.length ≤ target.length) :
    (setBytes target source offset).take (offset + source.length) = target.take offset ++ source := by
  rw [setBytes, List.take_left']
  simp only [List.length_append, List.length_take]
  omega

/-- A payload behind its length. -/
def frame (payload : List UInt8) : List UInt8 := headerBytes payload.length ++ payload

@[simp] theorem length_headerBytes (length : Nat) : (headerBytes length).length = 4 := rfl

@[simp] theorem length_frame (payload : List UInt8) : (frame payload).length = 4 + payload.length := by
  simp [frame]

theorem encodeFrame_eq {payload : List UInt8} (h : payload.length ≤ MAX_UINT32) :
    encodeFrame payload = .ok (frame payload) := by
  have hheader : setBytes (newBytes (4 + payload.length)) (headerBytes payload.length) 0 =
      headerBytes payload.length ++ newBytes payload.length := by
    simp [setBytes, newBytes]
  have hpayload : setBytes (headerBytes payload.length ++ newBytes payload.length) payload 4 =
      headerBytes payload.length ++ payload := by
    rw [setBytes, List.take_left' (length_headerBytes _), List.drop_eq_nil_of_le (by simp [newBytes]),
      List.append_nil]
  rw [encodeFrame, if_neg (Nat.not_lt.mpr h)]
  simp only [FRAME_HEADER_LENGTH, hheader, hpayload, frame]

theorem headerValue_headerBytes {length : Nat} (h : length ≤ MAX_UINT32) (rest : List UInt8) :
    headerValue (headerBytes length ++ rest) = length := by
  simp only [MAX_UINT32] at h
  simp only [headerValue, headerBytes, List.cons_append, List.nil_append, List.getD_cons_zero,
    List.getD_cons_succ, Nat.toUInt8_eq, UInt8.toNat_ofNat']
  omega

theorem headerValue_take (bytes : List UInt8) : headerValue (bytes.take 4) = headerValue bytes := by
  simp only [headerValue, List.getD_eq_getElem?_getD]
  repeat rw [List.getElem?_take_of_lt (by decide)]

/-! ## One byte at a time -/

/-- The refusal of a length. -/
def tooLong (limit frameLength : Nat) : Str :=
  lit "Frame length " ++ Cbor.decimal frameLength ++ lit " exceeds configured limit of " ++
    Cbor.decimal limit

/-- A byte behind those of the frame that has not ended: the bytes that stay, and the frame that it
ends. -/
def frameStep (limit : Nat) (pending : List UInt8) (byte : UInt8) :
    Except Str (List UInt8 × List (List UInt8)) :=
  let bytes := pending ++ [byte]
  if bytes.length < 4 then .ok (bytes, [])
  else if limit < headerValue bytes then .error (tooLong limit (headerValue bytes))
  else if bytes.length = 4 + headerValue bytes then .ok ([], [bytes.drop 4])
  else .ok (bytes, [])

/-- Bytes that end in a frame. -/
def Unfinished (limit : Nat) (bytes : List UInt8) : Prop :=
  bytes.length < 4 ∨ (headerValue bytes ≤ limit ∧ bytes.length < 4 + headerValue bytes)

section Bytes

variable {limit : Nat} {pending : List UInt8}

theorem headerValue_append {bytes : List UInt8} (more : List UInt8) (h : 4 ≤ bytes.length) :
    headerValue (bytes ++ more) = headerValue bytes := by
  rw [← headerValue_take, List.take_append_of_le_length h, headerValue_take]

theorem Unfinished.left {bytes more : List UInt8} (h : Unfinished limit (bytes ++ more)) :
    Unfinished limit bytes := by
  by_cases hshort : bytes.length < 4
  · exact .inl hshort
  · have hvalue := headerValue_append more (Nat.not_lt.mp hshort)
    rw [Unfinished, List.length_append, hvalue] at h
    exact .inr (by omega)

/-- Bytes inside a frame complete nothing. -/
theorem feed_unfinished {bytes : List UInt8} (h : Unfinished limit (pending ++ bytes)) :
    feed (frameStep limit) pending bytes = .ok (pending ++ bytes, []) := by
  induction bytes generalizing pending with
  | nil => simp
  | cons byte bytes ih =>
    rw [show pending ++ byte :: bytes = (pending ++ [byte]) ++ bytes by simp] at h ⊢
    have hstep : frameStep limit pending byte = .ok (pending ++ [byte], []) := by
      unfold frameStep
      rcases h.left with hshort | ⟨hlimit, hlt⟩
      · rw [if_pos hshort]
      · by_cases hshort : (pending ++ [byte]).length < 4
        · rw [if_pos hshort]
        · rw [if_neg hshort, if_neg (Nat.not_lt.mpr hlimit), if_neg (Nat.ne_of_lt hlt)]
    simp only [feed, hstep, ih h, bind, Except.bind, List.nil_append]

/-- The last byte of a frame completes it. -/
theorem feed_complete {bytes : List UInt8} (hne : bytes ≠ []) (hlong : 4 ≤ (pending ++ bytes).length)
    (hlimit : headerValue (pending ++ bytes) ≤ limit)
    (hlength : (pending ++ bytes).length = 4 + headerValue (pending ++ bytes)) :
    feed (frameStep limit) pending bytes = .ok ([], [(pending ++ bytes).drop 4]) := by
  obtain ⟨init, last, rfl⟩ := (List.eq_nil_or_concat bytes).resolve_left hne
  rw [List.concat_eq_append, ← List.append_assoc] at *
  have hopen : Unfinished limit (pending ++ init) := by
    by_cases hshort : (pending ++ init).length < 4
    · exact .inl hshort
    · have hvalue := headerValue_append [last] (Nat.not_lt.mp hshort)
      rw [hvalue, List.length_append] at hlength
      rw [hvalue] at hlimit
      exact .inr ⟨hlimit, by simp at hlength ⊢; omega⟩
  rw [feed_append_ok (feed_unfinished hopen)]
  have hstep : frameStep limit (pending ++ init) last =
      .ok ([], [(pending ++ init ++ [last]).drop 4]) := by
    unfold frameStep
    dsimp only
    rw [if_neg (Nat.not_lt.mpr hlong), if_neg (Nat.not_lt.mpr hlimit), if_pos hlength]
  simp [feed, hstep, bind, Except.bind, Except.map]

/-- A header that says too much is refused. -/
theorem feed_tooLong {bytes : List UInt8} (hne : bytes ≠ []) (hlength : (pending ++ bytes).length = 4)
    (hlimit : limit < headerValue (pending ++ bytes)) :
    feed (frameStep limit) pending bytes =
      .error (tooLong limit (headerValue (pending ++ bytes))) := by
  obtain ⟨init, last, rfl⟩ := (List.eq_nil_or_concat bytes).resolve_left hne
  rw [List.concat_eq_append, ← List.append_assoc] at *
  have hopen : Unfinished limit (pending ++ init) := by
    rw [List.length_append] at hlength
    exact .inl (by simp at hlength ⊢; omega)
  rw [feed_append_ok (feed_unfinished hopen)]
  have hstep : frameStep limit (pending ++ init) last =
      .error (tooLong limit (headerValue (pending ++ init ++ [last]))) := by
    unfold frameStep
    dsimp only
    rw [if_neg (Nat.not_lt.mpr (Nat.le_of_eq hlength.symm)), if_pos hlimit]
  simp [feed, hstep, bind, Except.bind, Except.map]

end Bytes

/-! ## Payloads -/

/-- The blocks of a decoder hold some bytes of a payload. -/
structure Filling (d : FrameDecoder) (expected : Nat) (body : List UInt8) : Prop where
  length : d.payloadLength = body.length
  blocks : (d.currentPayloadBlock = none ∧ d.payloadBlocks = [] ∧ body = []) ∨
    ∃ full block, d.currentPayloadBlock = some full.length ∧ d.payloadBlocks = full ++ [block] ∧
      d.currentPayloadBlockLength ≤ block.length ∧ full.flatten.length + block.length ≤ expected ∧
      body = full.flatten ++ block.take d.currentPayloadBlockLength

/-- What a decoder is besides its payload does not change. -/
structure SameHead (d d' : FrameDecoder) : Prop where
  rest : d'.noPayload = d.noPayload
  expected : d'.expectedPayloadLength = d.expectedPayloadLength

theorem SameHead.refl (d : FrameDecoder) : SameHead d d := ⟨rfl, rfl⟩

theorem SameHead.trans {d d' d'' : FrameDecoder} (h : SameHead d d') (h' : SameHead d' d'') :
    SameHead d d'' := ⟨h'.rest.trans h.rest, h'.expected.trans h.expected⟩

section Payload

variable {d : FrameDecoder} {expected : Nat} {body : List UInt8}

/-- After `nextBlock` the last block has room. -/
theorem nextBlock_spec (h : Filling d expected body) (hlt : body.length < expected) :
    SameHead d (d.nextBlock expected) ∧ (d.nextBlock expected).payloadLength = body.length ∧
      ∃ full block, (d.nextBlock expected).currentPayloadBlock = some full.length ∧
        (d.nextBlock expected).payloadBlocks = full ++ [block] ∧
        (d.nextBlock expected).currentPayloadBlockLength < block.length ∧
        full.flatten.length + block.length ≤ expected ∧
        body = full.flatten ++ block.take (d.nextBlock expected).currentPayloadBlockLength := by
  have hroom : 0 < min PAYLOAD_BLOCK_SIZE (expected - body.length) := by
    unfold PAYLOAD_BLOCK_SIZE
    omega
  unfold FrameDecoder.nextBlock
  rcases h.blocks with ⟨hcurrent, hblocks, rfl⟩ | ⟨full, block, hcurrent, hblocks, hle, hsize, hbody⟩
  · rw [if_neg (by simp [FrameDecoder.block, hcurrent])]
    refine ⟨⟨rfl, rfl⟩, h.length, [], newBytes (min PAYLOAD_BLOCK_SIZE expected), by simp [hblocks],
      by simp [hblocks, h.length], by simpa [newBytes] using hroom, ?_, by simp⟩
    simp only [newBytes, List.length_replicate, List.flatten_nil, List.length_nil]
    omega
  · have hblock : d.block = some block := by simp [FrameDecoder.block, hcurrent, hblocks]
    by_cases hfull : d.currentPayloadBlockLength = block.length
    · -- The last block is full, so it joins the others.
      rw [hfull, List.take_length] at hbody
      rw [if_neg (by simp [hblock, hfull])]
      refine ⟨⟨rfl, rfl⟩, h.length, full ++ [block], newBytes (min PAYLOAD_BLOCK_SIZE
        (expected - body.length)), by simp [hblocks], by simp [hblocks, h.length],
        by simpa [newBytes] using hroom, ?_, by simp [hbody]⟩
      simp only [List.flatten_append, List.flatten_singleton, ← hbody, newBytes, List.length_replicate]
      omega
    · rw [if_pos (by simpa [hblock] using hfull)]
      exact ⟨.refl d, h.length, full, block, hcurrent, hblocks, by omega, hsize, hbody⟩

/-- A round of the loop takes bytes of the chunk. -/
theorem fillBlock_spec (h : Filling d expected body) (hlt : body.length < expected)
    {chunk : List UInt8} (hne : chunk ≠ []) :
    ∃ d' count, (d.nextBlock expected).fillBlock chunk = (d', count) ∧ 0 < count ∧
      count ≤ chunk.length ∧ body.length + count ≤ expected ∧ SameHead d d' ∧
      Filling d' expected (body ++ chunk.take count) := by
  obtain ⟨hsame, hlength, full, block, hcurrent, hblocks, hroom, hsize, hbody⟩ := nextBlock_spec h hlt
  generalize d.nextBlock expected = next at *
  have hblock : next.block = some block := by simp [FrameDecoder.block, hcurrent, hblocks]
  have hpos := List.length_pos_iff.mpr hne
  have hbodylen := congrArg List.length hbody
  rw [List.length_append, List.length_take, Nat.min_eq_left (Nat.le_of_lt hroom)] at hbodylen
  unfold FrameDecoder.fillBlock
  simp only [hcurrent, hblock]
  generalize hcount : min (block.length - next.currentPayloadBlockLength) chunk.length = count
  have htake : (chunk.take count).length = count := by
    rw [List.length_take]
    omega
  have hfits : next.currentPayloadBlockLength + (chunk.take count).length ≤ block.length := by omega
  refine ⟨_, _, rfl, by omega, by omega, by omega, ⟨hsame.rest, hsame.expected⟩, ?_,
    .inr ⟨full, setBytes block (chunk.take count) next.currentPayloadBlockLength, rfl, ?_, ?_, ?_, ?_⟩⟩
  · simp only [List.length_append, htake, hlength]
  · rw [hblocks, List.set_append_right _ _ (Nat.le_refl _), Nat.sub_self, List.set_cons_zero]
  · rw [length_setBytes hfits]
    exact htake ▸ hfits
  · rw [length_setBytes hfits]
    exact hsize
  · have hset := take_setBytes hfits
    rw [htake] at hset
    rw [hset, hbody, List.append_assoc]

/-- The loop takes what the payload lacks. -/
theorem readPayload_spec {rounds : Nat} {chunk : List UInt8} (h : Filling d expected body)
    (hle : body.length ≤ expected) (hrounds : chunk.length ≤ rounds) :
    ∃ d', FrameDecoder.readPayload expected rounds d chunk =
        some (d', chunk.drop (expected - body.length)) ∧
      SameHead d d' ∧ Filling d' expected (body ++ chunk.take (expected - body.length)) := by
  induction rounds generalizing d body chunk with
  | zero =>
    obtain rfl := List.eq_nil_of_length_eq_zero (Nat.le_zero.mp hrounds)
    refine ⟨d, ?_, .refl d, by simpa using h⟩
    rw [FrameDecoder.readPayload, if_neg (by simp), List.drop_nil]
  | succ rounds ih =>
    by_cases hgo : chunk ≠ [] ∧ d.payloadLength < expected
    · have hlt : body.length < expected := h.length ▸ hgo.2
      obtain ⟨d', count, hfill, hpos, hcount, hroom, hsame, hfilling⟩ := fillBlock_spec h hlt hgo.1
      have hlen : (body ++ chunk.take count).length = body.length + count := by
        rw [List.length_append, List.length_take]
        omega
      obtain ⟨d'', hread, hsame', hfilling'⟩ := ih hfilling (hlen ▸ hroom)
        (show (chunk.drop count).length ≤ rounds by rw [List.length_drop]; omega)
      refine ⟨d'', ?_, hsame.trans hsame', ?_⟩
      · rw [FrameDecoder.readPayload, if_pos hgo, hfill]
        rw [hlen, List.drop_drop] at hread
        rw [show expected - body.length = count + (expected - (body.length + count)) by omega]
        exact hread
      · rw [hlen, List.append_assoc] at hfilling'
        rw [show expected - body.length = count + (expected - (body.length + count)) by omega,
          List.take_add]
        exact hfilling'
    · rw [FrameDecoder.readPayload, if_neg hgo]
      have hsplit : chunk = [] ∨ expected - body.length = 0 := by
        have hlength := h.length
        by_cases hchunk : chunk = []
        · exact .inl hchunk
        · have hge := fun hlt => hgo ⟨hchunk, hlt⟩
          exact .inr (Nat.sub_eq_zero_of_le (hlength ▸ Nat.not_lt.mp hge))
      rcases hsplit with rfl | hzero
      · exact ⟨d, by simp, .refl d, by simpa using h⟩
      · exact ⟨d, by simp [hzero], .refl d, by simpa [hzero] using h⟩

/-- Joined blocks that have the payload's length are the payload. -/
theorem joinBlocks_eq {blocks : List (List UInt8)} (h : blocks.flatten.length = expected) :
    FrameDecoder.joinBlocks expected blocks = blocks.flatten := by
  have hfold : ∀ (blocks : List (List UInt8)) (front : List UInt8) (room : Nat),
      blocks.flatten.length ≤ room →
      blocks.foldl (fun joined block => (setBytes joined.1 block joined.2, joined.2 + block.length))
        (front ++ newBytes room, front.length) =
      (front ++ blocks.flatten ++ newBytes (room - blocks.flatten.length),
        front.length + blocks.flatten.length) := by
    intro blocks
    induction blocks with
    | nil => simp
    | cons block blocks ih =>
      intro front room hroom
      rw [List.flatten_cons, List.length_append] at hroom
      have hset : setBytes (front ++ newBytes room) block front.length =
          front ++ block ++ newBytes (room - block.length) := by
        rw [setBytes, List.take_left' rfl, ← List.drop_drop, List.drop_left' rfl, newBytes,
          List.drop_replicate, newBytes]
      rw [List.foldl_cons, hset, ← List.length_append, ih _ _ (by omega)]
      simp only [List.flatten_cons, List.length_append, List.append_assoc, Nat.sub_sub, Nat.add_assoc]
  have hall := hfold blocks [] expected (Nat.le_of_eq h)
  rw [List.nil_append, List.length_nil, h, Nat.sub_self] at hall
  rw [FrameDecoder.joinBlocks, hall]
  simp [newBytes]

/-- A complete payload is taken as it is. -/
theorem takePayload_complete (h : Filling d expected body) (hlength : body.length = expected)
    (hpos : 0 < expected) : d.takePayload expected = (d.noPayload, [body]) := by
  rcases h.blocks with ⟨-, -, rfl⟩ | ⟨full, block, -, hblocks, hle, hsize, hbody⟩
  · exact absurd hlength (by simp; omega)
  · -- No byte of the blocks is missing.
    have hfull : d.payloadBlocks.flatten = body := by
      have hbodylen := congrArg List.length hbody
      rw [List.length_append, List.length_take] at hbodylen
      rw [hblocks, List.flatten_append, List.flatten_singleton, hbody,
        List.take_of_length_le (by omega)]
    rw [FrameDecoder.takePayload, if_pos (h.length.trans hlength)]
    split
    · next heq =>
      rw [heq, List.flatten_singleton] at hfull
      rw [hfull]
    · rw [joinBlocks_eq (hfull ▸ hlength), hfull]

theorem takePayload_unfilled (h : Filling d expected body) (hlength : body.length ≠ expected) :
    d.takePayload expected = (d, []) := by
  rw [FrameDecoder.takePayload, if_neg (h.length ▸ hlength)]

end Payload

/-! ## Chunks -/

/-- An open decoder that has read some bytes of a header. -/
structure AtHeader (limit : Nat) (d : FrameDecoder) (pending : List UInt8) : Prop where
  isOpen : d.state = .open_
  headerSize : d.header.length = 4
  limited : d.maxFrameLength = limit
  expects : d.expectedPayloadLength = none
  read : d.headerLength = pending.length
  short : pending.length < 4
  bytes : d.header.take pending.length = pending

/-- An open decoder that has read a header, and not all of the payload that it announces. -/
structure AtPayload (limit : Nat) (d : FrameDecoder) (head body : List UInt8) : Prop where
  isOpen : d.state = .open_
  headerSize : d.header.length = 4
  limited : d.maxFrameLength = limit
  expects : d.expectedPayloadLength = some (headerValue head)
  read : d.headerLength = 0
  headSize : head.length = 4
  admitted : headerValue head ≤ limit
  lacks : body.length < headerValue head
  filling : Filling d (headerValue head) body

/-- An open decoder and the bytes of the frame that has not ended. -/
def Pending (limit : Nat) (d : FrameDecoder) (pending : List UInt8) : Prop :=
  AtHeader limit d pending ∨ ∃ head body, AtPayload limit d head body ∧ pending = head ++ body

/-- What a call answers when the machine gives `result`, behind the frames before. -/
def Answers (limit : Nat) (frames : List (List UInt8))
    (result : Except Str (List UInt8 × List (List UInt8))) (out : Option (FrameDecoder × Answer)) :
    Prop :=
  match result with
  | .error message => ∃ d, out = some (d, .error message) ∧ d.state = .failed
  | .ok r => ∃ d, out = some (d, .ok (frames ++ r.2)) ∧ Pending limit d r.1

section Chunk

variable {limit : Nat} {d : FrameDecoder} {pending : List UInt8}

/-- A decoder without a payload stands before a frame. -/
theorem AtHeader.fresh (hstate : d.state = .open_) (hheader : d.header.length = 4)
    (hlimit : d.maxFrameLength = limit) (hexpected : d.expectedPayloadLength = none)
    (hlength : d.headerLength = 0) : AtHeader limit d [] :=
  ⟨hstate, hheader, hlimit, hexpected, hlength, by decide, rfl⟩

/-- The header bytes of a chunk. -/
theorem readHeader_spec (h : AtHeader limit d pending) {chunk : List UInt8} (hne : chunk ≠ []) :
    ∃ count, 0 < count ∧ (d.readHeader chunk).2 = chunk.drop count ∧
      match (d.readHeader chunk).1 with
      | .partial_ d' => Pending limit d' (pending ++ chunk.take count) ∧
          feed (frameStep limit) pending (chunk.take count) = .ok (pending ++ chunk.take count, [])
      | .empty d' => Pending limit d' [] ∧
          feed (frameStep limit) pending (chunk.take count) = .ok ([], [[]])
      | .tooLong d' message => d'.state = .failed ∧
          feed (frameStep limit) pending (chunk.take count) = .error message
      | .payload d' expected => AtPayload limit d' (pending ++ chunk.take count) [] ∧
          expected = headerValue (pending ++ chunk.take count) ∧
          feed (frameStep limit) pending (chunk.take count) = .ok (pending ++ chunk.take count, []) := by
  have hpos := List.length_pos_iff.mpr hne
  have hshort := h.short
  unfold FrameDecoder.readHeader
  simp only [h.read, FRAME_HEADER_LENGTH]
  generalize hcount : min (4 - pending.length) chunk.length = count
  have htake : (chunk.take count).length = count := by
    rw [List.length_take]
    omega
  have hfits : pending.length + (chunk.take count).length ≤ d.header.length := by
    rw [h.headerSize]
    omega
  have hlen : (setBytes d.header (chunk.take count) pending.length).length = 4 := by
    rw [length_setBytes hfits, h.headerSize]
  have hbytes := take_setBytes hfits
  rw [htake, h.bytes] at hbytes
  have hboth : (pending ++ chunk.take count).length = pending.length + count := by
    rw [List.length_append, htake]
  have hsome : chunk.take count ≠ [] := List.ne_nil_of_length_pos (by omega)
  refine ⟨count, by omega, ?_⟩
  by_cases hpart : pending.length + count < 4
  · rw [if_pos hpart]
    refine ⟨rfl, .inl ⟨h.isOpen, hlen, h.limited, h.expects, hboth.symm, hboth ▸ hpart, ?_⟩,
      feed_unfinished (.inl (hboth ▸ hpart))⟩
    rw [hboth, hbytes]
  · have hfour : pending.length + count = 4 := by omega
    -- The four bytes are the whole header.
    rw [hfour, ← hlen, List.take_length] at hbytes
    rw [hfour] at hboth
    rw [if_neg hpart, hbytes, h.limited]
    by_cases hlimit : limit < headerValue (pending ++ chunk.take count)
    · rw [if_pos hlimit]
      exact ⟨rfl, rfl, feed_tooLong hsome hboth hlimit⟩
    · rw [if_neg hlimit]
      by_cases hzero : headerValue (pending ++ chunk.take count) = 0
      · rw [if_pos hzero]
        refine ⟨rfl, .inl (.fresh h.isOpen hboth rfl h.expects rfl), ?_⟩
        rw [feed_complete hsome (Nat.le_of_eq hboth.symm) (Nat.not_lt.mp hlimit) (by rw [hboth, hzero]),
          List.drop_of_length_le (Nat.le_of_eq hboth)]
      · rw [if_neg hzero]
        refine ⟨rfl, ⟨h.isOpen, hboth, rfl, rfl, rfl, hboth, Nat.not_lt.mp hlimit,
          Nat.pos_of_ne_zero hzero, ⟨rfl, .inl ⟨rfl, rfl, rfl⟩⟩⟩, rfl, feed_unfinished (.inr ?_)⟩
        exact ⟨Nat.not_lt.mp hlimit, by omega⟩

/-- The payload bytes of a chunk. -/
theorem readPayload_pending {head body : List UInt8} (h : AtPayload limit d head body)
    (chunk : List UInt8) :
    ∃ d' count, FrameDecoder.readPayload (headerValue head) chunk.length d chunk =
        some (d', chunk.drop count) ∧ 0 < count ∧
      ∃ pending', feed (frameStep limit) (head ++ body) (chunk.take count) =
          .ok (pending', (d'.takePayload (headerValue head)).2) ∧
        Pending limit (d'.takePayload (headerValue head)).1 pending' := by
  have hlacks := h.lacks
  have hhead := h.headSize
  obtain ⟨d', hread, hsame, hfilling⟩ := readPayload_spec h.filling (Nat.le_of_lt hlacks)
    (Nat.le_refl chunk.length)
  refine ⟨d', _, hread, Nat.sub_pos_of_lt hlacks, ?_⟩
  have hstate : d'.state = .open_ := (congrArg FrameDecoder.state hsame.rest).trans h.isOpen
  have hheader : d'.header.length = 4 :=
    (congrArg (fun d => d.header.length) hsame.rest).trans h.headerSize
  have hlimit : d'.maxFrameLength = limit :=
    (congrArg FrameDecoder.maxFrameLength hsame.rest).trans h.limited
  have hlength : d'.headerLength = 0 :=
    (congrArg FrameDecoder.headerLength hsame.rest).trans h.read
  have hvalue : headerValue (head ++ (body ++ chunk.take (headerValue head - body.length))) =
      headerValue head := headerValue_append _ (Nat.le_of_eq hhead.symm)
  by_cases hall : headerValue head - body.length ≤ chunk.length
  · have htake : (body ++ chunk.take (headerValue head - body.length)).length = headerValue head := by
      rw [List.length_append, List.length_take, Nat.min_eq_left hall,
        Nat.add_sub_of_le (Nat.le_of_lt hlacks)]
    rw [takePayload_complete hfilling htake (Nat.zero_lt_of_lt hlacks)]
    refine ⟨[], ?_, .inl (.fresh hstate hheader hlimit rfl hlength)⟩
    have hsome : chunk.take (headerValue head - body.length) ≠ [] :=
      List.ne_nil_of_length_pos (by
        rw [List.length_take, Nat.min_eq_left hall]
        exact Nat.sub_pos_of_lt hlacks)
    rw [feed_complete hsome] <;> rw [List.append_assoc]
    · rw [List.drop_left' hhead]
    · rw [List.length_append, hhead]
      exact Nat.le_add_right _ _
    · rw [hvalue]
      exact h.admitted
    · rw [hvalue, List.length_append, htake, hhead]
  · have htake : chunk.take (headerValue head - body.length) = chunk :=
      List.take_of_length_le (Nat.le_of_lt (Nat.not_le.mp hall))
    rw [htake] at hfilling hvalue ⊢
    have hlt : (body ++ chunk).length < headerValue head := by
      rw [List.length_append, Nat.add_comm]
      exact Nat.add_lt_of_lt_sub (Nat.not_le.mp hall)
    rw [takePayload_unfilled hfilling (Nat.ne_of_lt hlt)]
    refine ⟨head ++ (body ++ chunk), ?_, .inr ⟨head, body ++ chunk, ⟨hstate, hheader, hlimit,
      hsame.expected.trans h.expects, hlength, hhead, h.admitted, hlt, hfilling⟩, rfl⟩⟩
    rw [feed_unfinished, List.append_assoc]
    rw [List.append_assoc, Unfinished, hvalue, List.length_append, hhead]
    exact .inr ⟨h.admitted, Nat.add_lt_add_left hlt 4⟩

theorem Answers.after {p : List UInt8} {frames xs : List (List UInt8)} {a b : List UInt8}
    {out : Option (FrameDecoder × Answer)}
    (hfirst : feed (frameStep limit) pending a = .ok (p, xs))
    (h : Answers limit (frames ++ xs) (feed (frameStep limit) p b) out) :
    Answers limit frames (feed (frameStep limit) pending (a ++ b)) out := by
  rw [feed_append_ok hfirst]
  cases hrest : feed (frameStep limit) p b with
  | error message =>
    rw [hrest] at h
    exact h
  | ok r =>
    rw [hrest] at h
    obtain ⟨d, hout, hd⟩ := h
    exact ⟨d, by rw [hout, List.append_assoc], hd⟩

/-- The loop over a chunk is the machine on its bytes. -/
theorem readChunk_spec {rounds : Nat} {chunk : List UInt8} (h : Pending limit d pending)
    (hrounds : chunk.length ≤ rounds) (frames : List (List UInt8)) :
    Answers limit frames (feed (frameStep limit) pending chunk)
      (FrameDecoder.readChunk rounds d chunk frames) := by
  induction rounds generalizing d pending chunk frames with
  | zero =>
    obtain rfl := List.eq_nil_of_length_eq_zero (Nat.le_zero.mp hrounds)
    exact ⟨d, by simp [FrameDecoder.readChunk], h⟩
  | succ rounds ih =>
    cases chunk with
    | nil => exact ⟨d, by simp [FrameDecoder.readChunk], h⟩
    | cons byte bytes =>
      -- What is left of the chunk is shorter, so the hypothesis takes over.
      have hrest : ∀ {d' p xs} count, 0 < count → Pending limit d' p →
          feed (frameStep limit) pending ((byte :: bytes).take count) = .ok (p, xs) →
          Answers limit frames (feed (frameStep limit) pending (byte :: bytes))
            (FrameDecoder.readChunk rounds d' ((byte :: bytes).drop count) (frames ++ xs)) := by
        intro d' p xs count hpos hpending hfeed
        rw [← List.take_append_drop count (byte :: bytes)]
        refine .after hfeed ?_
        rw [List.take_append_drop]
        refine ih hpending ?_ _
        rw [List.length_drop]
        omega
      have hpayload : ∀ {d' head body xs} count, AtPayload limit d' head body →
          feed (frameStep limit) pending ((byte :: bytes).take count) = .ok (head ++ body, xs) →
          xs = [] → Answers limit frames (feed (frameStep limit) pending (byte :: bytes))
            ((FrameDecoder.readPayload (headerValue head) ((byte :: bytes).drop count).length d'
              ((byte :: bytes).drop count)).bind fun read =>
                FrameDecoder.readChunk rounds (read.1.takePayload (headerValue head)).1 read.2
                  (frames ++ (read.1.takePayload (headerValue head)).2)) := by
        rintro d' head body xs count hat hfeed rfl
        obtain ⟨d'', more, hread, hmore, p, hfeed', hpending⟩ :=
          readPayload_pending hat ((byte :: bytes).drop count)
        rw [hread, Option.bind_some, List.drop_drop]
        refine hrest (count + more) (by omega) hpending ?_
        rw [List.take_add, feed_append_ok hfeed, hfeed']
        rfl
      rw [FrameDecoder.readChunk, FrameDecoder.nextHeader]
      rcases h with h | ⟨head, body, hat, rfl⟩
      · obtain ⟨count, hpos, hdrop, hend⟩ := readHeader_spec h (List.cons_ne_nil byte bytes)
        rw [h.expects]
        dsimp only
        generalize d.readHeader (byte :: bytes) = read at *
        obtain ⟨_ | _ | _ | _, _⟩ := read <;> obtain rfl := hdrop
        · obtain ⟨hpending, hfeed⟩ := hend
          simpa using hrest count hpos hpending hfeed
        · exact hrest count hpos hend.1 hend.2
        · obtain ⟨hfailed, hfeed⟩ := hend
          rw [← List.take_append_drop count (byte :: bytes), feed_append_error hfeed]
          exact ⟨_, rfl, hfailed⟩
        · obtain ⟨hat, rfl, hfeed⟩ := hend
          exact hpayload count hat (by rw [List.append_nil]; exact hfeed) rfl
      · rw [hat.expects]
        exact hpayload 0 hat (by simp) rfl

end Chunk

/-! ## Runs -/

/-- A decoder that reads a stream, or has stopped. -/
def Live (d : FrameDecoder) : Prop :=
  (∃ limit pending, Pending limit d pending) ∨ d.state ≠ .open_

section Runs

variable {limit : Nat} {d : FrameDecoder} {pending : List UInt8}

theorem Pending.isOpen (h : Pending limit d pending) : d.state = .open_ := by
  rcases h with h | ⟨head, body, h, -⟩
  · exact h.isOpen
  · exact h.isOpen

theorem closed_of_open (h : d.state = .open_) : d.closed = none := by rw [FrameDecoder.closed, h]

theorem calls_cons {d' d'' : FrameDecoder} {c : Call} {cs : List Call} {answer : Answer}
    {answers : List Answer} (hcall : call d c = some (d', answer))
    (hcalls : calls d' cs = some (d'', answers)) : calls d (c :: cs) = some (d'', answer :: answers) := by
  rw [calls, hcall]
  simp [hcalls]

/-- A push is the machine on the bytes of the chunk. -/
theorem push_pending (h : Pending limit d pending) (chunk : List UInt8) :
    Answers limit [] (feed (frameStep limit) pending chunk) (d.push chunk) := by
  rw [FrameDecoder.push, closed_of_open h.isOpen]
  exact readChunk_spec h (Nat.le_refl _) []

/-- The end of a stream succeeds between two frames. -/
theorem end_pending (h : Pending limit d pending) :
    d.end_.1.state ≠ .open_ ∧ (d.end_.2.isOk = true ↔ pending = []) := by
  have hinside : (d.headerLength ≠ 0 ∨ d.expectedPayloadLength ≠ none) ↔ pending ≠ [] := by
    rcases h with h | ⟨head, body, h, rfl⟩
    · simp [h.read, h.expects]
    · have hhead : head ≠ [] := List.ne_nil_of_length_pos (by rw [h.headSize]; decide)
      simp [h.expects, hhead]
  rw [FrameDecoder.end_, closed_of_open h.isOpen]
  by_cases hpending : pending = []
  · rw [if_neg (fun hc => hinside.mp hc hpending)]
    simp [hpending, Except.isOk, Except.toBool]
  · rw [if_pos (hinside.mpr hpending)]
    simp [hpending, Except.isOk, Except.toBool, FrameDecoder.fail]

/-- A decoder that has stopped refuses every call. -/
theorem call_stopped (h : d.state ≠ .open_) (c : Call) :
    ∃ message, call d c = some (d, .error message) := by
  obtain ⟨message, hclosed⟩ : ∃ message, d.closed = some message := by
    unfold FrameDecoder.closed
    cases hstate : d.state with
    | open_ => exact absurd hstate h
    | ended => exact ⟨_, rfl⟩
    | failed => exact ⟨_, rfl⟩
  refine ⟨message, ?_⟩
  cases c with
  | push chunk => rw [call, FrameDecoder.push, hclosed]
  | end_ =>
    rw [call, FrameDecoder.end_, hclosed]
    rfl

/-- A call returns, and after one that fails the decoder has stopped. -/
theorem call_live (h : Live d) (c : Call) :
    ∃ d' answer, call d c = some (d', answer) ∧ Live d' ∧ (answer.isOk = false → d'.state ≠ .open_) := by
  rcases h with ⟨limit, pending, h⟩ | h
  · cases c with
    | push chunk =>
      have hanswer := push_pending h chunk
      cases hfeed : feed (frameStep limit) pending chunk with
      | error message =>
        rw [hfeed] at hanswer
        obtain ⟨d', hpush, hfailed⟩ := hanswer
        have hstopped : d'.state ≠ .open_ := by rw [hfailed]; decide
        exact ⟨d', _, hpush, .inr hstopped, fun _ => hstopped⟩
      | ok r =>
        rw [hfeed] at hanswer
        obtain ⟨d', hpush, hpending⟩ := hanswer
        exact ⟨d', _, hpush, .inl ⟨limit, _, hpending⟩, fun hok => nomatch hok⟩
    | end_ =>
      have hstopped := (end_pending h).1
      exact ⟨_, _, rfl, .inr hstopped, fun _ => hstopped⟩
  · obtain ⟨message, hcall⟩ := call_stopped h c
    exact ⟨d, _, hcall, .inr h, fun _ => h⟩

/-- Every call of a run returns, and after one that fails all of them fail. -/
theorem calls_live (h : Live d) (cs : List Call) :
    ∃ d' answers, calls d cs = some (d', answers) ∧ answers.length = cs.length ∧
      (d.state ≠ .open_ → ∀ a ∈ answers, a.isOk = false) ∧
      answers.Pairwise fun a b => a.isOk = false → b.isOk = false := by
  induction cs generalizing d with
  | nil => exact ⟨d, [], rfl, rfl, fun _ => by simp, .nil⟩
  | cons c cs ih =>
    obtain ⟨d', answer, hcall, hlive, hstops⟩ := call_live h c
    obtain ⟨d'', answers, hcalls, hlength, hstopped, hpairwise⟩ := ih hlive
    refine ⟨d'', answer :: answers, calls_cons hcall hcalls, by simp [hlength], fun hstate => ?_,
      List.pairwise_cons.mpr ⟨fun b hb hfails => hstopped (hstops hfails) b hb, hpairwise⟩⟩
    obtain ⟨message, hrefused⟩ := call_stopped hstate c
    obtain ⟨rfl, rfl⟩ := Prod.mk.inj (Option.some.inj (hrefused.symm.trans hcall))
    exact List.forall_mem_cons.mpr ⟨rfl, hstopped hstate⟩

/-- A run of calls one of which fails. -/
def Fails (d : FrameDecoder) (cs : List Call) : Prop :=
  ∃ d' answers, calls d cs = some (d', answers) ∧ ∃ a ∈ answers, a.isOk = false

/-- The chunks of a stream and its end, when the machine takes all of them. -/
theorem stream_ok {cs : List (List UInt8)} {r : List UInt8 × List (List (List UInt8))}
    (h : Pending limit d pending) (hfeed : feedChunks (frameStep limit) pending cs = .ok r) :
    ∃ d' answer, calls d (stream cs) = some (d', r.2.map .ok ++ [answer]) ∧
      (r.1 = [] → answer = .ok []) ∧ (r.1 ≠ [] → ∃ message, answer = .error message) := by
  induction cs generalizing d pending r with
  | nil =>
    obtain rfl := Except.ok.inj hfeed
    have hend := (end_pending h).2
    refine ⟨d.end_.1, d.end_.2.map fun _ => [], rfl, fun hnil => ?_, fun hne => ?_⟩
    · have hok := hend.mpr hnil
      cases hanswer : d.end_.2 with
      | error message => rw [hanswer] at hok; cases hok
      | ok => rfl
    · cases hanswer : d.end_.2 with
      | error message => exact ⟨message, rfl⟩
      | ok => exact absurd (hend.mp (by rw [hanswer]; rfl)) hne
  | cons c cs ih =>
    obtain ⟨first, hfirst, hfeed⟩ := bind_ok.mp hfeed
    obtain ⟨rest, hrest, hfeed⟩ := bind_ok.mp hfeed
    obtain rfl := Except.ok.inj hfeed
    have hanswer := push_pending h c
    rw [hfirst] at hanswer
    obtain ⟨d', hpush, hpending⟩ := hanswer
    obtain ⟨d'', answer, hcalls, hlast⟩ := ih hpending hrest
    exact ⟨d'', answer, calls_cons (c := .push c) hpush hcalls, hlast⟩

/-- A stream that the machine refuses fails. -/
theorem stream_error {cs : List (List UInt8)} {message : Str} (h : Pending limit d pending)
    (hfeed : feedChunks (frameStep limit) pending cs = .error message) : Fails d (stream cs) := by
  induction cs generalizing d pending with
  | nil => cases hfeed
  | cons c cs ih =>
    have hanswer := push_pending h c
    cases hfirst : feed (frameStep limit) pending c with
    | error message' =>
      rw [hfirst] at hanswer
      obtain ⟨d', hpush, hfailed⟩ := hanswer
      obtain ⟨d'', answers, hcalls, -⟩ :=
        calls_live (.inr (by rw [hfailed]; decide) : Live d') (stream cs)
      exact ⟨d'', _, calls_cons (c := .push c) hpush hcalls, _, List.mem_cons_self, rfl⟩
    | ok r =>
      rw [hfirst] at hanswer
      obtain ⟨d', hpush, hpending⟩ := hanswer
      have hrest : feedChunks (frameStep limit) r.1 cs = .error message := by
        cases hrest : feedChunks (frameStep limit) r.1 cs with
        | error e => simpa [feedChunks, hfirst, hrest, bind, Except.bind] using hfeed
        | ok => simp [feedChunks, hfirst, hrest, bind, Except.bind] at hfeed
      obtain ⟨d'', answers, hcalls, a, ha, hfails⟩ := ih hpending hrest
      exact ⟨d'', _, calls_cons (c := .push c) hpush hcalls, a, List.mem_cons_of_mem _ ha, hfails⟩

/-- A stream fails if the machine refuses its bytes, or keeps some of them. -/
theorem fails_stream (h : Pending limit d pending) (cs : List (List UInt8)) :
    Fails d (stream cs) ↔
      ∀ xs, feed (frameStep limit) pending cs.flatten ≠ .ok ([], xs) := by
  rw [← feedChunks_flatten]
  cases hfeed : feedChunks (frameStep limit) pending cs with
  | error message => simpa [Except.map] using stream_error h hfeed
  | ok r =>
    obtain ⟨d', answer, hcalls, hbetween, hinside⟩ := stream_ok h hfeed
    by_cases hnil : r.1 = []
    · refine iff_of_false ?_ (by simp [Except.map, hnil])
      rintro ⟨_, answers, hcalls', a, ha, hfails⟩
      obtain ⟨-, rfl⟩ := Prod.mk.inj (Option.some.inj (hcalls'.symm.trans hcalls))
      rw [hbetween hnil] at ha
      rcases List.mem_append.mp ha with ha | ha
      · obtain ⟨out, -, rfl⟩ := List.mem_map.mp ha
        cases hfails
      · obtain rfl := List.mem_singleton.mp ha
        cases hfails
    · refine iff_of_true ?_ (by simp [Except.map, hnil])
      obtain ⟨message, rfl⟩ := hinside hnil
      exact ⟨d', _, hcalls, _, List.mem_append_right _ List.mem_cons_self, rfl⟩

end Runs

/-! ## Frames -/

section Frames

variable {limit : Nat}

theorem headerValue_frame {payload : List UInt8} (h : payload.length ≤ MAX_UINT32) :
    headerValue (frame payload) = payload.length := headerValue_headerBytes h payload

/-- A frame is one payload. -/
theorem feed_frame {payload : List UInt8} (h : payload.length ≤ limit) (hlimit : limit ≤ MAX_UINT32) :
    feed (frameStep limit) [] (frame payload) = .ok ([], [payload]) := by
  have hvalue := headerValue_frame (h.trans hlimit)
  rw [@feed_complete limit [] (frame payload) (List.ne_nil_of_length_pos (by simp)) (by simp)] <;>
    rw [List.nil_append]
  · rfl
  · rw [hvalue]
    exact h
  · rw [hvalue, length_frame]

/-- Part of a frame is none. -/
theorem unfinished_frame {payload bytes : List UInt8} (h : payload.length ≤ limit)
    (hlimit : limit ≤ MAX_UINT32) (hstart : bytes <+: frame payload)
    (hlt : bytes.length < (frame payload).length) : Unfinished limit bytes := by
  obtain ⟨more, hmore⟩ := hstart
  by_cases hshort : bytes.length < 4
  · exact .inl hshort
  · have hvalue := headerValue_append more (Nat.not_lt.mp hshort)
    rw [hmore, headerValue_frame (h.trans hlimit)] at hvalue
    rw [length_frame] at hlt
    exact .inr ⟨hvalue ▸ h, hvalue ▸ hlt⟩

theorem feed_frames {payloads : List (List UInt8)} (h : ∀ p ∈ payloads, p.length ≤ limit)
    (hlimit : limit ≤ MAX_UINT32) (more : List UInt8) :
    feed (frameStep limit) [] ((payloads.map frame).flatten ++ more) =
      (feed (frameStep limit) [] more).map fun r => (r.1, payloads ++ r.2) := by
  induction payloads with
  | nil => cases hmore : feed (frameStep limit) [] more <;> simp [hmore, Except.map]
  | cons payload payloads ih =>
    obtain ⟨hpayload, hrest⟩ := List.forall_mem_cons.mp h
    rw [List.map_cons, List.flatten_cons, List.append_assoc,
      feed_append_ok (feed_frame hpayload hlimit), ih hrest]
    cases feed (frameStep limit) [] more <;> rfl

/-- Where a frame of a stream ends. -/
def frameEnd (payloads : List (List UInt8)) (j : Nat) : Nat :=
  ((payloads.take (j + 1)).map frame).flatten.length

/-- Of the first bytes of a stream, the machine makes the frames that end in them. -/
theorem feed_beginning {payloads : List (List UInt8)} (h : ∀ p ∈ payloads, p.length ≤ limit)
    (hlimit : limit ≤ MAX_UINT32) {bytes pending : List UInt8} {xs : List (List UInt8)}
    (hstart : bytes <+: (payloads.map frame).flatten)
    (hfeed : feed (frameStep limit) [] bytes = .ok (pending, xs)) (j : Nat) (hj : j < payloads.length) :
    j < xs.length ↔ frameEnd payloads j ≤ bytes.length := by
  induction payloads generalizing bytes xs j with
  | nil => exact absurd hj (Nat.not_lt_zero j)
  | cons payload payloads ih =>
    obtain ⟨hpayload, hrest⟩ := List.forall_mem_cons.mp h
    rw [List.map_cons, List.flatten_cons] at hstart
    by_cases hlt : bytes.length < (frame payload).length
    · have hpart : bytes <+: frame payload :=
        List.prefix_of_prefix_length_le hstart (List.prefix_append _ _) (Nat.le_of_lt hlt)
      rw [@feed_unfinished limit [] bytes (unfinished_frame hpayload hlimit hpart hlt)] at hfeed
      obtain ⟨-, rfl⟩ := Prod.mk.inj (Except.ok.inj hfeed)
      simp only [frameEnd, List.take_succ_cons, List.map_cons, List.flatten_cons, List.length_append,
        List.length_nil]
      omega
    · obtain ⟨bytes', rfl⟩ := List.prefix_of_prefix_length_le (List.prefix_append _ _) hstart
        (Nat.not_lt.mp hlt)
      rw [feed_append_ok (feed_frame hpayload hlimit)] at hfeed
      obtain ⟨r, hr, heq⟩ := map_ok.mp hfeed
      obtain ⟨rfl, rfl⟩ := Prod.mk.inj heq
      cases j with
      | zero => simp [frameEnd]
      | succ j =>
        have := ih hrest ((List.prefix_append_right_inj _).mp hstart) hr j (by simpa using hj)
        simp only [frameEnd, List.take_succ_cons, List.map_cons, List.flatten_cons, List.length_append,
          List.length_singleton] at this ⊢
        omega

theorem mapM_encodeFrame {payloads : List (List UInt8)} (h : ∀ p ∈ payloads, p.length ≤ MAX_UINT32) :
    payloads.mapM encodeFrame = .ok (payloads.map frame) := by
  induction payloads with
  | nil => rfl
  | cons payload payloads ih =>
    obtain ⟨hpayload, hrest⟩ := List.forall_mem_cons.mp h
    rw [List.mapM_cons, encodeFrame_eq hpayload, ih hrest]
    rfl

/-- A new decoder stands before a frame. -/
theorem pending_new {options : Option Number} {d : FrameDecoder}
    (h : FrameDecoder.new options = .ok d) :
    d.maxFrameLength ≤ MAX_UINT32 ∧ Pending d.maxFrameLength d [] := by
  obtain ⟨limit, hlimit, rfl⟩ := map_ok.mp h
  refine ⟨?_, .inl (.fresh rfl rfl rfl rfl rfl)⟩
  unfold resolveMaxFrameLength at hlimit
  dsimp only at hlimit
  split_ifs at hlimit with hvalue
  obtain rfl := Except.ok.inj hlimit
  exact hvalue.2.2

/-- Framing does not depend on the chunks: frames come back as their payloads, each with its last byte,
and the end of the stream succeeds; inside a frame it fails; any bytes fail in all chunks or in none; and
after a failure every call fails. -/
theorem framing_chunks {options : Option Number} {d : FrameDecoder}
    (h : FrameDecoder.new options = .ok d) :
    (∀ payloads : List (List UInt8), (∀ p ∈ payloads, p.length ≤ d.maxFrameLength) →
      ∃ frames, payloads.mapM encodeFrame = .ok frames ∧
        (∀ chunks : List (List UInt8), chunks.flatten = frames.flatten →
          ∃ (d' : FrameDecoder) (outs : List (List (List UInt8))),
            calls d (stream chunks) = some (d', outs.map .ok ++ [.ok []]) ∧
            outs.length = chunks.length ∧ outs.flatten = payloads ∧
            ∀ i j, j < payloads.length → (j < (outs.take i).flatten.length ↔
              (frames.take (j + 1)).flatten.length ≤ (chunks.take i).flatten.length)) ∧
        ∀ (chunks : List (List UInt8)) (k : Nat) (whole part : List UInt8), frames[k]? = some whole →
          part ≠ [] → part <+: whole → part ≠ whole →
          chunks.flatten = (frames.take k).flatten ++ part →
          ∃ (d' : FrameDecoder) (outs : List (List (List UInt8))) (message : Str),
            calls d (stream chunks) = some (d', outs.map .ok ++ [.error message]) ∧
              outs.flatten = payloads.take k) ∧
    (∀ chunks chunks' : List (List UInt8), chunks.flatten = chunks'.flatten →
      (Fails d (stream chunks) ↔ Fails d (stream chunks'))) ∧
    ∀ cs : List Call, ∃ d' answers, calls d cs = some (d', answers) ∧ answers.length = cs.length ∧
      answers.Pairwise fun a b => a.isOk = false → b.isOk = false := by
  obtain ⟨hlimit, hpending⟩ := pending_new h
  refine ⟨fun payloads hpayloads => ⟨_, mapM_encodeFrame fun p hp => (hpayloads p hp).trans hlimit,
    fun chunks hchunks => ?_, fun chunks k whole part hwhole hne hpart hproper hchunks => ?_⟩,
    fun chunks chunks' heq => ?_, fun cs => ?_⟩
  · have hfeed := feed_frames hpayloads hlimit []
    rw [List.append_nil, feed_nil, ← hchunks] at hfeed
    obtain ⟨outs, houts, hflat⟩ := feedChunks_of_feed hfeed
    obtain ⟨d', answer, hcalls, hend, -⟩ := stream_ok hpending houts
    obtain rfl := hend rfl
    refine ⟨d', outs, hcalls, feedChunks_length houts, by rw [hflat, List.append_nil], fun i j hj => ?_⟩
    obtain ⟨s', hs'⟩ := feedChunks_take houts i
    have hfirst : (chunks.take i).flatten <+: (payloads.map frame).flatten :=
      hchunks ▸ (List.take_prefix i chunks).flatten
    rw [feed_beginning hpayloads hlimit hfirst hs' j hj, frameEnd, List.map_take]
  · rw [List.getElem?_map] at hwhole
    obtain ⟨payload, hpayload, rfl⟩ := Option.map_eq_some_iff.mp hwhole
    have hlt : part.length < (frame payload).length :=
      Nat.lt_of_le_of_ne hpart.length_le fun heq => hproper (hpart.eq_of_length heq)
    have hall : ∀ p ∈ payloads.take k, p.length ≤ d.maxFrameLength :=
      fun p hp => hpayloads p (List.mem_of_mem_take hp)
    have hfeed := feed_frames hall hlimit part
    rw [List.map_take, ← hchunks, @feed_unfinished _ [] part (unfinished_frame
      (hpayloads _ (List.mem_of_getElem? hpayload)) hlimit hpart hlt)] at hfeed
    obtain ⟨outs, houts, hflat⟩ := feedChunks_of_feed hfeed
    obtain ⟨d', answer, hcalls, -, hend⟩ := stream_ok hpending houts
    obtain ⟨message, rfl⟩ := hend hne
    exact ⟨d', outs, message, hcalls, by rw [hflat, List.append_nil]⟩
  · rw [fails_stream hpending, fails_stream hpending, heq]
  · obtain ⟨d', answers, hcalls, hlength, -, hpairwise⟩ := calls_live (.inl ⟨_, _, hpending⟩) cs
    exact ⟨d', answers, hcalls, hlength, hpairwise⟩

/-- The decoder without options. -/
def defaultDecoder : FrameDecoder :=
  ⟨newBytes FRAME_HEADER_LENGTH, 0, DEFAULT_MAX_FRAME_LENGTH, [], none, 0, none, 0, .open_⟩

theorem new_none : FrameDecoder.new none = .ok defaultDecoder := by
  have hvalue : (Cbor.isSafeInteger (.ofNat DEFAULT_MAX_FRAME_LENGTH) = true ∧
      (Cbor.isNegative (.ofNat DEFAULT_MAX_FRAME_LENGTH) = false ∨
        Cbor.absNat (.ofNat DEFAULT_MAX_FRAME_LENGTH) = 0)) ∧
      Cbor.absNat (.ofNat DEFAULT_MAX_FRAME_LENGTH) = DEFAULT_MAX_FRAME_LENGTH := by decide +kernel
  rw [FrameDecoder.new, resolveMaxFrameLength]
  dsimp only [Option.getD_none]
  rw [if_pos ⟨hvalue.1.1, hvalue.1.2, by rw [hvalue.2]; decide⟩, hvalue.2]
  rfl

/-- Two frames that are cut inside the header of the second: the first chunk gives the first payload. -/
theorem framing_chunks_default : FrameDecoder.new none = .ok defaultDecoder ∧
    ∃ (d' : FrameDecoder) (outs : List (List (List UInt8))),
      calls defaultDecoder (stream [[0, 0, 0, 2, 7, 8, 0, 0], [0, 1, 9]]) =
        some (d', outs.map .ok ++ [.ok []]) ∧
      outs.flatten = [[7, 8], [9]] ∧ (outs.take 1).flatten.length = 1 := by
  obtain ⟨frames, hframes, hchunks, -⟩ := (framing_chunks new_none).1 [[7, 8], [9]] (by decide)
  obtain rfl : [[0, 0, 0, 2, 7, 8], [0, 0, 0, 1, 9]] = frames := Except.ok.inj (by rw [← hframes]; rfl)
  obtain ⟨d', outs, hcalls, -, hflat, hplaces⟩ := hchunks [[0, 0, 0, 2, 7, 8, 0, 0], [0, 1, 9]] rfl
  have hfirst : 0 < (outs.take 1).flatten.length := (hplaces 1 0 (by decide)).mpr (by decide)
  have hsecond : ¬ 1 < (outs.take 1).flatten.length := fun h => absurd ((hplaces 1 1 (by decide)).mp h) (by decide)
  exact ⟨new_none, d', outs, hcalls, hflat, by omega⟩

end Frames

end Framing
