import HazelcastClient.Protocol.Frame
import Mathlib.Data.List.Forall2

/-!
# Messages do not depend on how their bytes arrive

The builder is followed through an arbitrary cut of the byte stream. Between two
reads it stands either before a header or inside a frame of the message that is
being received (`AtHeader`, `InFrame`), and the bytes that are still missing are
the rest of that message. `fillMessageFrom_spec` moves the builder over the
bytes of one buffer, `drain_spec` over all the messages the buffer completes, and
`readAll_spec` over all the reads: every wire message is accepted exactly once,
in order, in the layout of `packFrames`.

What is left of a header is moved to the front of the buffer, with a `memcpy` that
is undefined if it overlaps. `Moved` and `Consumed` follow how many bytes are
consumed: the rest of a frame that has begun, and behind it no header or at least
six bytes. So only the rest of a frame can be shorter than what is left behind it.
-/

namespace HazelcastClient.Protocol

open ClientMessage List ReadHandler ClientMessageBuilder Frame

open Util (ByteBuffer)

def ofBlocks (blocks : List Block) : ClientMessage := { dataBuffer := blocks }

/-- The message as it is received: the blocks of its frames. -/
def WireMessage.message (M : WireMessage) : ClientMessage := ofBlocks (packFrames M.frames)

/-- Some frames of `M` are written and the next header has not been read; `rest`
is what is missing of `M`. -/
def AtHeader (M : List Frame) (m : ClientMessage) (isFinal : Bool) (remaining : ℕ)
    (rest : List UInt8) : Prop :=
  ∃ pre post, M = pre ++ post ∧ post ≠ [] ∧ m = ofBlocks (packFrames pre) ∧
    isFinal = false ∧ remaining = 0 ∧ rest = frameBytes post

/-- The first `c` bytes of the frame `f` of `M` are written. -/
def InFrame (M : List Frame) (m : ClientMessage) (isFinal : Bool) (remaining : ℕ)
    (rest : List UInt8) : Prop :=
  ∃ pre f post c, M = pre ++ f :: post ∧ 0 < c ∧ c < f.size ∧
    m = ofBlocks (writeBlocks (packFrames pre) f.size (f.bytes.take c)) ∧
    isFinal = post.isEmpty ∧ remaining = f.size - c ∧
    rest = f.bytes.drop c ++ frameBytes post

/-- How `fill_message_from` can leave the message `M` when `future` is still to
be received and `after` follows `M` on the wire; `n` bytes were unread before. -/
inductive Filled (M : List Frame) (future after : List UInt8) (n : ℕ) (s : Fill) : Prop
  | complete (hfinal : s.isFinal = true) (hrem : s.remainingBytesInFrame = 0)
      (hmsg : s.message = ofBlocks (packFrames M))
      (hstream : s.buffer.unread ++ future = after) (hlt : s.buffer.unread.length < n)
  | waiting (rest : List UInt8)
      (hat : AtHeader M s.message s.isFinal s.remainingBytesInFrame rest)
      (hstream : s.buffer.unread ++ future = rest ++ after)
      (hshort : s.buffer.unread.length < 6)
  | inside (rest : List UInt8)
      (hin : InFrame M s.message s.isFinal s.remainingBytesInFrame rest)
      (hstream : future = rest ++ after) (hdrained : s.buffer.unread = [])

def Fill.Complete (s : Fill) : Prop := s.isFinal = true ∧ s.remainingBytesInFrame = 0

/-- What `fill_message_from` consumes, when `missing` bytes of a frame are to come: a part of
the frame; the frame, if the message is complete or no header follows; or a header as well. -/
def Moved (missing : ℕ) (b b' : ByteBuffer) (done : Prop) : Prop :=
  b'.lim = b.lim ∧ (b.unread.length < missing ∧ b'.unread.length = 0 ∨
    b'.unread.length + missing = b.unread.length ∧ (done ∨ b.unread.length < missing + 6) ∨
    b'.unread.length + missing + 6 ≤ b.unread.length)

/-- What the loop of `handle` consumes. -/
def Consumed (missing : ℕ) (b b' : ByteBuffer) : Prop :=
  b'.lim = b.lim ∧ (b.unread.length < missing ∧ b'.unread.length = 0 ∨
    b'.unread.length + missing = b.unread.length ∧ b.unread.length < missing + 6 ∨
    missing + 6 ≤ b.unread.length ∧ b'.unread.length + 6 ≤ b.unread.length)

theorem writeBlocks_ne_nil (bs : List Block) (n : ℕ) (src : List UInt8) :
    writeBlocks bs n src ≠ [] := by
  rcases eq_nil_or_concat bs with rfl | ⟨pre, b, rfl⟩
  · simp [writeBlocks]
  · rw [concat_eq_append, writeBlocks_concat]
    split <;> simp

variable {future : List UInt8}

section

variable {unread part rest : List UInt8} (h : unread ++ future = part ++ rest)

include h

theorem stream_covers (hle : part.length ≤ unread.length) :
    ∃ left, unread = part ++ left ∧ rest = left ++ future := by
  rcases append_eq_append_iff.mp h with ⟨a, rfl, rfl⟩ | h
  · have hnil : a = [] := by
      rw [length_append] at hle
      exact length_eq_zero_iff.mp (by omega)
    exact ⟨[], by simp [hnil], by simp [hnil]⟩
  · exact h

theorem stream_ends_inside (hlt : unread.length < part.length) :
    ∃ missing, part = unread ++ missing ∧ future = missing ++ rest := by
  rcases append_eq_append_iff.mp h with h | ⟨c, rfl, -⟩
  · exact h
  · rw [length_append] at hlt
    omega

end

/-- One move of bytes into the frame `f`, of which `c` bytes are written: the frame is
completed, or the buffer ends inside it. -/
theorem take_spec {pre post : List Frame} {f : Frame} {c reserved : ℕ} {s : Fill}
    {after : List UInt8} (hcf : c < f.size) (hb : s.buffer.unread ≠ [])
    (hwr : ∀ src : List UInt8, src.length = min (f.size - c) s.buffer.remaining →
      s.message.wrPtr reserved src =
        .ok (ofBlocks (writeBlocks (packFrames pre) f.size (f.bytes.take c ++ src))))
    (hstream : s.buffer.unread ++ future = f.bytes.drop c ++ (frameBytes post ++ after)) :
    ∃ s', s.take reserved (f.size - c) post.isEmpty = .ok s' ∧ s'.buffer.lim = s.buffer.lim ∧
      (s' = ⟨ofBlocks (packFrames (pre ++ [f])), s'.buffer, post.isEmpty, 0⟩ ∧
          s'.buffer.unread ++ future = frameBytes post ++ after ∧
          s'.buffer.unread.length + (f.size - c) = s.buffer.unread.length ∨
        0 < s'.remainingBytesInFrame ∧ s.buffer.unread.length < f.size - c ∧
          s'.buffer.unread.length = 0 ∧ ∀ n, Filled (pre ++ f :: post) future after n s') := by
  have hpos : 0 < s.buffer.unread.length := length_pos_iff_ne_nil.mpr hb
  have hdrop : (f.bytes.drop c).length = f.size - c := by
    rw [length_drop, Frame.size]
  have hlen := s.buffer.unread_length
  have hread := s.buffer.unread_readBytes _ (min_le_right (f.size - c) _)
  simp only [Fill.take, ByteBuffer.readBytes_fst]
  rw [hwr _ (by rw [length_take]; omega)]
  refine ⟨_, rfl, rfl, ?_⟩
  by_cases hwhole : f.size - c ≤ s.buffer.remaining
  · -- the rest of the frame is in the buffer
    obtain ⟨r, hr, hrest⟩ := stream_covers hstream (by omega)
    have hfront : s.buffer.unread.take (f.size - c) = f.bytes.drop c := hr ▸ take_left' hdrop
    have hleft : s.buffer.unread.drop (f.size - c) = r := hr ▸ drop_left' hdrop
    simp only [min_eq_left hwhole, hfront, hleft] at hread ⊢
    refine .inl ⟨?_, ?_, ?_⟩
    · rw [take_append_drop, writeBlocks_packFrames, Nat.sub_self]
    · rw [hread, hrest]
    · rw [hread, hr, length_append, hdrop, Nat.add_comm]
  · -- the buffer ends inside the frame
    obtain ⟨a, ha, hfut⟩ := stream_ends_inside hstream (by omega)
    have hmin : min (f.size - c) s.buffer.remaining = s.buffer.unread.length := by
      omega
    simp only [hmin, take_length, drop_length] at hread ⊢
    refine .inr ⟨by omega, by omega, by rw [hread, length_nil],
      fun n => .inside (a ++ frameBytes post) ⟨pre, f, post,
      c + s.buffer.unread.length, rfl, by omega, by omega, ?_, rfl, Nat.sub_sub _ _ _, ?_⟩ ?_ hread⟩
    · rw [take_add, ha, take_left]
    · rw [← drop_drop, ha, drop_left]
    · rw [hfut, append_assoc]

/-- The loop, started before the header of the first frame of `post` or behind the last
frame. The induction is on the frames that are left; each whole frame costs one unit of
fuel and at least six bytes. -/
theorem fillFrames_spec (pre post : List Frame) (hM : Terminated (pre ++ post)) (b : ByteBuffer)
    (future after : List UInt8) (hstream : b.unread ++ future = frameBytes post ++ after)
    (fuel n : ℕ) (hfuel : b.unread.length < fuel) (hn : b.unread.length ≤ n)
    (hlast : post = [] → b.unread.length < n) :
    ∃ s, fillFrames fuel ⟨ofBlocks (packFrames pre), b, post.isEmpty, 0⟩ = .ok s ∧
      Filled (pre ++ post) future after n s ∧ Moved 0 b s.buffer s.Complete := by
  induction post generalizing pre b fuel with
  | nil =>
    refine ⟨_, fillFrames_of_not_starts (by simp [Fill.Starts]) (by omega), ?_, ?_⟩
    · exact .complete rfl rfl (by rw [append_nil]) hstream (hlast rfl)
    · exact ⟨rfl, .inr (.inl ⟨rfl, .inl ⟨rfl, rfl⟩⟩)⟩
  | cons f post ih =>
    by_cases hheader : 6 ≤ b.unread.length
    · obtain ⟨fuel, rfl⟩ : ∃ k, fuel = k + 1 := ⟨fuel - 1, by omega⟩
      have hf6 := f.six_le_size
      rw [frameBytes_cons, append_assoc] at hstream
      have hstarts : Fill.Starts ⟨ofBlocks (packFrames pre), b, false, 0⟩ :=
        ⟨rfl, rfl, b.unread_length ▸ hheader⟩
      obtain ⟨s', hs', hlim, hcase⟩ := take_spec (s := ⟨ofBlocks (packFrames pre), b, false, 0⟩)
        (by omega : 0 < f.size) (length_pos_iff_ne_nil.mp (by dsimp only; omega))
        (fun src _ => wrPtr_eq _ src (fun _ => by omega) f.size_lt) hstream
      have hnext : Fill.next ⟨ofBlocks (packFrames pre), b, false, 0⟩ = .ok s' := by
        rw [Fill.next, frameLen_of_prefix ⟨future, hstream⟩ hheader,
          frameFlags_of_prefix ⟨future, hstream⟩ hheader, ← isFinal,
          hM.isFinal_of_append]
        exact hs'
      rw [isEmpty_cons, fillFrames_succ, if_pos hstarts, hnext]
      dsimp only at hlim hcase
      rcases hcase with ⟨hdone, hrest, hless⟩ | ⟨hpos, -, hdrained, hfilled⟩
      · obtain ⟨s, hs, hfill, hmoved⟩ := ih (pre ++ [f]) (by simpa using hM) s'.buffer hrest fuel
          (by omega) (by omega) (by omega)
        refine ⟨s, by rw [hdone]; exact hs, by simpa using hfill, hmoved.1.trans hlim, ?_⟩
        have hsizes := hmoved.2
        omega
      · refine ⟨s', fillFrames_of_not_starts (fun h => hpos.ne' h.1) (by omega), hfilled n, hlim, ?_⟩
        omega
    · -- fewer than six bytes are left: the header has to wait
      refine ⟨_, fillFrames_of_not_starts (fun h => hheader ?_) (by omega), .waiting _
        ⟨pre, f :: post, rfl, by simp, rfl, rfl, rfl, rfl⟩ hstream (Nat.lt_of_not_le hheader),
        rfl, .inr (.inl ⟨rfl, .inr ?_⟩)⟩
      · exact b.unread_length ▸ h.2.2
      · omega

section Fill

variable {M : List Frame} (hM : Terminated M) {m : ClientMessage} {isFinal : Bool} {remaining : ℕ}
  {rest after : List UInt8} {b : ByteBuffer} (hstream : b.unread ++ future = rest ++ after)

include hM hstream

theorem fillMessageFrom_inFrame (hin : InFrame M m isFinal remaining rest) (hb : b.unread ≠ []) :
    ∃ s, fillMessageFrom ⟨m, b, isFinal, remaining⟩ = .ok s ∧
      Filled M future after b.unread.length s ∧ Moved remaining b s.buffer s.Complete := by
  obtain ⟨pre, f, post, c, rfl, hc, hcf, rfl, rfl, rfl, rfl⟩ := hin
  have hwr : ∀ src : List UInt8, src.length = min (f.size - c) b.remaining →
      (ofBlocks (writeBlocks (packFrames pre) f.size (f.bytes.take c))).wrPtr
        (min (f.size - c) b.remaining) src =
        .ok (ofBlocks (writeBlocks (packFrames pre) f.size (f.bytes.take c ++ src))) := by
    intro src hsrc
    have hsize := f.size_lt
    have hroom : (f.bytes.take c).length + src.length ≤ f.size := by
      rw [length_take, ← Frame.size]
      omega
    unfold ofBlocks
    rw [wrPtr_eq _ _ (fun h => absurd h (writeBlocks_ne_nil _ _ _)) (by omega), ← hsrc,
      writeBlocks_writeBlocks _ hroom]
  rw [append_assoc] at hstream
  obtain ⟨s', hs', hlim, hcase⟩ := take_spec (s := ⟨ofBlocks _, b, post.isEmpty, f.size - c⟩) hcf
    hb hwr hstream
  rw [fillMessageFrom_eq, Fill.entry, if_neg (by dsimp only; omega), hs']
  dsimp only at hlim hcase
  rcases hcase with ⟨hdone, hrest, hless⟩ | ⟨hpos, hshort, hdrained, hfilled⟩
  · obtain ⟨s, hs, hfill, hmoved⟩ := fillFrames_spec (pre ++ [f]) post (by simpa using hM) s'.buffer
      future after hrest (s'.buffer.remaining + 1) b.unread.length
      (by rw [ByteBuffer.unread_length]; omega) (by omega) (by omega)
    refine ⟨s, by rw [hdone]; exact hs, by simpa using hfill, hmoved.1.trans hlim, .inr ?_⟩
    rcases hmoved.2 with ⟨hlt, -⟩ | ⟨hkept, hcomplete | hlt⟩ | hheader
    · exact absurd hlt (Nat.not_lt_zero _)
    · exact .inl ⟨by omega, .inl hcomplete⟩
    · exact .inl ⟨by omega, .inr (by omega)⟩
    · exact .inr (by omega)
  · exact ⟨s', fillFrames_of_not_starts (fun h => hpos.ne' h.1) (by omega), hfilled _, hlim,
      .inl ⟨hshort, hdrained⟩⟩

theorem fillMessageFrom_atHeader (hat : AtHeader M m isFinal remaining rest) :
    ∃ s, fillMessageFrom ⟨m, b, isFinal, remaining⟩ = .ok s ∧
      Filled M future after b.unread.length s ∧ Moved remaining b s.buffer s.Complete := by
  obtain ⟨pre, post, rfl, hpost, rfl, rfl, rfl, rfl⟩ := hat
  obtain ⟨s, hs, hfill⟩ := fillFrames_spec pre post hM b future after hstream
    (b.remaining + 1) _ (by rw [ByteBuffer.unread_length]; omega) le_rfl (absurd · hpost)
  rw [isEmpty_eq_false_iff.mpr hpost] at hs
  exact ⟨s, hs, hfill⟩

end Fill

/-! ## Whole runs -/

/-- The builder has consumed everything before `rest`, and `ms` are the messages
it has not completed yet; the first of them may be in progress. -/
inductive Aligned (bd : ClientMessageBuilder) (rest : List UInt8) (ms : List WireMessage) : Prop
  | idle (hmsg : bd.message = none) (hwhole : bd.remainingFrameBytes = 0) (hrest : rest = wire ms)
  | header (M : WireMessage) (later : List WireMessage) (m : ClientMessage) (r : List UInt8)
      (hms : ms = M :: later) (hmsg : bd.message = some m)
      (hat : AtHeader M.frames m bd.isFinalFrame bd.remainingFrameBytes r)
      (hrest : rest = r ++ wire later)
  | inside (M : WireMessage) (later : List WireMessage) (m : ClientMessage) (r : List UInt8)
      (hms : ms = M :: later) (hmsg : bd.message = some m)
      (hin : InFrame M.frames m bd.isFinalFrame bd.remainingFrameBytes r)
      (hrest : rest = r ++ wire later)

/-- The messages `ms` are accepted one after the other, from the partial messages
`p` to the partial messages `q`, and `handled` is given to the connection. -/
inductive Accepts : MessageMap → List WireMessage → MessageMap → List ClientMessage → Prop
  | nil (p : MessageMap) : Accepts p [] p []
  | cons {p p' q : MessageMap} {M : WireMessage} {ms : List WireMessage}
      {first later : List ClientMessage}
      (hM : acceptMessage p M.message = .ok ⟨none, p', first⟩) (hms : Accepts p' ms q later) :
      Accepts p (M :: ms) q (first ++ later)

/-- The invariant of a run: `content` is what the read buffer holds, `future` what
the socket will still deliver, and what has been handled together with what is
going to be handled is `total`. -/
def Tracks (q : MessageMap) (total : List ClientMessage) (bd : ClientMessageBuilder)
    (content : List UInt8) (delivered : List ClientMessage) (future : List UInt8) : Prop :=
  ∃ ms later, Aligned bd (content ++ future) ms ∧
    Accepts bd.partialMessages ms q later ∧ delivered ++ later = total

/-- What `handle` leaves in the buffer is less than a header. -/
def Settled (bd : ClientMessageBuilder) (content : List UInt8) : Prop :=
  content.length < 6 ∧ (0 < bd.remainingFrameBytes → content = [])

variable {bd : ClientMessageBuilder} {b : ByteBuffer} {ms : List WireMessage}

theorem fill_of_aligned (h : Aligned bd (b.unread ++ future) ms) (hb : b.unread ≠ []) :
    ∃ M later s, ms = M :: later ∧ fillMessageFrom (bd.fillArgs b) = .ok s ∧
      Filled M.frames future (wire later) b.unread.length s ∧
      Moved bd.remainingFrameBytes b s.buffer s.Complete := by
  cases h with
  | idle hmsg hwhole hrest =>
    cases ms with
    | nil =>
      simp only [wire_nil, append_eq_nil_iff] at hrest
      exact absurd hrest.1 hb
    | cons M later =>
      have hat : AtHeader M.frames {} false 0 (frameBytes M.frames) :=
        ⟨[], M.frames, rfl, M.frames_ne_nil, rfl, rfl, rfl, rfl⟩
      obtain ⟨s, hs, hfill⟩ := fillMessageFrom_atHeader M.terminated (by simpa using hrest) hat
      refine ⟨M, later, s, rfl, ?_, hwhole ▸ hfill⟩
      simpa only [fillArgs, hmsg] using hs
  | header M later m r hms hmsg hat hrest =>
    obtain ⟨s, hs, hfill⟩ := fillMessageFrom_atHeader M.terminated hrest hat
    refine ⟨M, later, s, hms, ?_, hfill⟩
    simpa only [fillArgs, hmsg] using hs
  | inside M later m r hms hmsg hin hrest =>
    obtain ⟨s, hs, hfill⟩ := fillMessageFrom_inFrame M.terminated hrest hin hb
    refine ⟨M, later, s, hms, ?_, hfill⟩
    simpa only [fillArgs, hmsg] using hs

variable {q : MessageMap} {total delivered : List ClientMessage}

/-- One call of `on_data`: it completes the next message and goes on, or it
leaves the buffer settled. -/
theorem onData_spec (h : Tracks q total bd b.unread delivered future) (hb : b.unread ≠ []) :
    ∃ r, bd.onData b = .ok r ∧
      Tracks q total r.builder r.buffer.unread (delivered ++ r.handled) future ∧
      Moved bd.remainingFrameBytes b r.buffer (r.isCompleted = true) ∧
      (r.isCompleted = true → r.builder.remainingFrameBytes = 0 ∧
        r.buffer.unread.length < b.unread.length) ∧
      (r.isCompleted = false → Settled r.builder r.buffer.unread) := by
  obtain ⟨ms, later, halign, hacc, htotal⟩ := h
  obtain ⟨M, ms, s, rfl, hs, hfill, hmoved⟩ := fill_of_aligned halign hb
  unfold onData
  rw [hs]
  cases hfill with
  | complete hfinal hrem hmsg hstream hlt =>
    obtain _ | ⟨hM, hms⟩ := hacc
    have hmsg' : s.message = M.message := hmsg
    simp only [hfinal, hrem, and_self, if_true, hmsg', hM]
    refine ⟨_, rfl, ⟨ms, _, Aligned.idle rfl rfl hstream, hms, ?_⟩,
      by simpa [Fill.Complete, hfinal, hrem] using hmoved, fun _ => ⟨rfl, hlt⟩, by simp⟩
    simpa using htotal
  | waiting rest hat hstream hshort =>
    have hnot : ¬ (s.isFinal = true ∧ s.remainingBytesInFrame = 0) := by
      obtain ⟨-, -, -, -, -, hf, -, -⟩ := hat
      simp [hf]
    simp only [hnot, if_false]
    refine ⟨_, rfl, ⟨M :: ms, later, Aligned.header M ms s.message rest rfl rfl hat hstream,
      hacc, by simpa using htotal⟩, by simpa [Fill.Complete, hnot] using hmoved, by simp,
      fun _ => ⟨hshort, fun hpos => ?_⟩⟩
    obtain ⟨-, -, -, -, -, -, hr, -⟩ := hat
    simp only [hr, lt_self_iff_false] at hpos
  | inside rest hin hstream hdrained =>
    have hnot : ¬ (s.isFinal = true ∧ s.remainingBytesInFrame = 0) := by
      obtain ⟨-, f, -, c, -, -, hcf, -, -, hr, -⟩ := hin
      omega
    simp only [hnot, if_false]
    refine ⟨_, rfl, ⟨M :: ms, later, Aligned.inside M ms s.message rest rfl rfl hin
      (by simpa [hdrained] using hstream), hacc, by simpa using htotal⟩,
      by simpa [Fill.Complete, hnot] using hmoved, by simp,
      fun _ => ⟨by simp [hdrained], fun _ => hdrained⟩⟩

/-- The loop of `handle`: every call of `on_data` that completes a message makes
the buffer shorter, so the fuel suffices. -/
theorem drain_spec (fuel : ℕ) (h : ReadHandler) (hfuel : h.byteBuffer.unread.length < fuel)
    (ht : Tracks q total h.builder h.byteBuffer.unread h.delivered future) :
    ∃ h', h.drain fuel = .ok h' ∧
      Tracks q total h'.builder h'.byteBuffer.unread h'.delivered future ∧
      Settled h'.builder h'.byteBuffer.unread ∧
      Consumed h.builder.remainingFrameBytes h.byteBuffer h'.byteBuffer := by
  induction fuel generalizing h with
  | zero => omega
  | succ fuel ih =>
    unfold drain
    by_cases hrem : h.byteBuffer.hasRemaining = true
    · rw [if_pos hrem]
      obtain ⟨r, hr, htracks, ⟨hlim, hmoved⟩, hdone, hsettled⟩ :=
        onData_spec ht ((ByteBuffer.hasRemaining_iff _).mp hrem)
      rw [hr]
      cases hc : r.isCompleted with
      | true =>
        obtain ⟨hwhole, hlt⟩ := hdone hc
        obtain ⟨h', hd, htracks', hsettled', hlim', hconsumed⟩ :=
          ih ⟨r.buffer, r.builder, h.delivered ++ r.handled⟩ (by simp only; omega) htracks
        refine ⟨h', by simpa [hc] using hd, htracks', hsettled', hlim'.trans hlim, ?_⟩
        dsimp only at hconsumed
        rw [hwhole] at hconsumed
        omega
      | false =>
        simp only [hc, Bool.false_eq_true, if_false, false_or] at hmoved ⊢
        refine ⟨_, rfl, htracks, hsettled hc, hlim, ?_⟩
        dsimp only
        omega
    · rw [if_neg hrem]
      have hnil : h.byteBuffer.unread = [] := by
        by_contra hne
        exact hrem ((ByteBuffer.hasRemaining_iff _).mpr hne)
      refine ⟨h, rfl, ht, by simp [Settled, hnil], rfl, ?_⟩
      rw [hnil, length_nil]
      omega

/-- The bytes that are left overlap the front of the buffer exactly if the read has brought
fewer bytes of the frame before them. -/
theorem overlap_iff {missing n : ℕ} {b b' : ByteBuffer} (hb : b.pos = 0)
    (h : Consumed missing b b') (hleft : b'.unread.length < 6)
    (hread : 0 < missing → b.unread.length = n) :
    0 < b'.pos ∧ b'.pos < b'.remaining ↔ Overlaps missing n := by
  obtain ⟨hlim, hsizes⟩ := h
  have hpos := b'.pos_le_lim
  simp only [ByteBuffer.unread_length, ByteBuffer.remaining, Overlaps] at *
  omega

theorem socketRead_spec (h : ReadHandler) (chunk : List UInt8)
    (hfit : chunk.length ≤ h.byteBuffer.remaining)
    (hs : Settled h.builder h.byteBuffer.received)
    (ht : Tracks q total h.builder h.byteBuffer.received h.delivered (chunk ++ future)) :
    Overlaps h.builder.remainingFrameBytes chunk.length ∧
        h.socketRead chunk = .error .undefinedBehaviour ∨
      ¬ Overlaps h.builder.remainingFrameBytes chunk.length ∧ ∃ h', h.socketRead chunk = .ok h' ∧
        Tracks q total h'.builder h'.byteBuffer.received h'.delivered future ∧
        Settled h'.builder h'.byteBuffer.received := by
  have ht' : Tracks q total h.builder (h.byteBuffer.received ++ chunk) h.delivered future := by
    simpa [Tracks] using ht
  unfold socketRead
  rw [dif_pos hfit]
  unfold handle
  by_cases hpos : (h.byteBuffer.store chunk hfit).position = 0
  · -- nothing has been received at all
    rw [if_pos hpos]
    have hnil : h.byteBuffer.received ++ chunk = [] := by
      rw [← ByteBuffer.received_store _ _ hfit]
      exact length_eq_zero_iff.mp (by rw [ByteBuffer.received_length, hpos])
    refine .inr ⟨?_, _, rfl, ?_, ?_⟩
    · rw [(append_eq_nil_iff.mp hnil).2]
      exact fun hover => Nat.not_lt_zero _ hover.2.1
    · simpa using ht'
    · simp [Settled, hnil]
  · rw [if_neg hpos]
    obtain ⟨h', hd, htracks, hsettled, hconsumed⟩ := drain_spec
      ((h.byteBuffer.store chunk hfit).flip.remaining + h.builder.pendingBytes + 1)
      ⟨(h.byteBuffer.store chunk hfit).flip, h.builder, h.delivered⟩
      (by
        simp only [ByteBuffer.unread_length]
        omega)
      (by simpa using ht')
    simp only [hd]
    have hoverlap := overlap_iff rfl hconsumed hsettled.1 (n := chunk.length) fun hinside => by
      simp [hs.2 hinside]
    by_cases hover : Overlaps h.builder.remainingFrameBytes chunk.length
    · rw [ByteBuffer.rewind_of_overlap _ (hoverlap.mpr hover)]
      exact .inl ⟨hover, rfl⟩
    · obtain ⟨b, hrewind, hreceived⟩ :=
        ByteBuffer.rewind_of_not_overlap _ fun h => hover (hoverlap.mp h)
      rw [hrewind]
      exact .inr ⟨hover, _, rfl, by simpa [hreceived] using htracks,
        by simpa [hreceived] using hsettled⟩

/-- When nothing is left to be received, every message has been accepted. -/
theorem accepted_all {content : List UInt8} (ht : Tracks q total bd content delivered [])
    (hs : Settled bd content) :
    bd.partialMessages = q ∧ delivered = total := by
  obtain ⟨ms, later, halign, hacc, htotal⟩ := ht
  rw [append_nil] at halign
  have hnil : ms = [] := by
    cases halign with
    | idle hmsg hwhole hrest =>
      cases ms with
      | nil => rfl
      | cons M ms =>
        have h6 := six_le_frameBytes M.frames_ne_nil
        have hlt := hs.1
        rw [hrest, wire_cons, length_append] at hlt
        omega
    | header M later m r hms hmsg hat hrest =>
      obtain ⟨pre, post, -, hpost, -, -, -, rfl⟩ := hat
      have h6 := six_le_frameBytes hpost
      have hlt := hs.1
      rw [hrest, length_append] at hlt
      omega
    | inside M later m r hms hmsg hin hrest =>
      obtain ⟨pre, f, post, c, -, -, hcf, -, -, hr, rfl⟩ := hin
      have hempty := hs.2 (by omega)
      have hlen := congrArg List.length (hrest.symm.trans hempty)
      simp only [length_append, length_drop, length_nil] at hlen
      unfold Frame.size at hcf
      omega
  subst hnil
  cases hacc
  exact ⟨rfl, by simpa using htotal⟩

/-- A whole run: whatever the cut of the stream into reads, the messages are
accepted in order and nothing else happens, unless a read makes `compact` overlap. -/
theorem readAll_spec (h : ReadHandler) (chunks : List (List UInt8)) (hfit : h.ReadsFit chunks)
    (hs : Settled h.builder h.byteBuffer.received)
    (ht : Tracks q total h.builder h.byteBuffer.received h.delivered chunks.flatten) :
    ¬ h.ReadsClear chunks ∧ h.readAll chunks = .error .undefinedBehaviour ∨
      h.ReadsClear chunks ∧ ∃ h', h.readAll chunks = .ok h' ∧ h'.builder.partialMessages = q ∧
        h'.delivered = total := by
  induction chunks generalizing h with
  | nil => exact .inr ⟨trivial, h, rfl, accepted_all (by simpa using ht) hs⟩
  | cons chunk chunks ih =>
    obtain ⟨hle, hnext⟩ := hfit
    rw [flatten_cons] at ht
    rcases socketRead_spec h chunk hle hs ht with
      ⟨hover, hread⟩ | ⟨hclear, h', hread, htracks, hsettled⟩
    · exact .inl ⟨fun hall => hall.1 hover, by simp only [readAll, hread]⟩
    · rcases ih h' (hnext h' hread) hsettled htracks with ⟨hlater, hall⟩ | ⟨hlater, h'', hall, hres⟩
      · exact .inl ⟨fun hclears => hlater (hclears.2 h' hread), by simp only [readAll, hread, hall]⟩
      · refine .inr ⟨⟨hclear, fun h₁ hok => ?_⟩, h'', by simp only [readAll, hread, hall], hres⟩
        cases hread.symm.trans hok
        exact hlater

/-- A run from the start of a connection. -/
theorem readAll_accepts {handled : List ClientMessage} (capacity : ℕ) (ms : List WireMessage)
    (hacc : Accepts (fun _ => none) ms q handled) (chunks : List (List UInt8))
    (hcut : chunks.flatten = wire ms) (hfit : (ofCapacity capacity).ReadsFit chunks) :
    ¬ (ofCapacity capacity).ReadsClear chunks ∧
        (ofCapacity capacity).readAll chunks = .error .undefinedBehaviour ∨
      (ofCapacity capacity).ReadsClear chunks ∧
        ∃ h, (ofCapacity capacity).readAll chunks = .ok h ∧
          h.builder.partialMessages = q ∧ h.delivered = handled := by
  have hnil : (ByteBuffer.ofCapacity capacity).received = [] := rfl
  refine readAll_spec _ chunks hfit ⟨?_, fun _ => hnil⟩ ⟨ms, handled, ?_, hacc, rfl⟩
  · exact hnil ▸ (by decide : ([] : List UInt8).length < 6)
  · exact Aligned.idle rfl rfl (by rw [hcut]; rfl)

/-! ## Unfragmented messages -/

variable {M : WireMessage} (p : MessageMap)

theorem getHeaderFlags_message {f : Frame} {fs : List Frame} (hM : M.frames = f :: fs) :
    M.message.getHeaderFlags = .ok f.flags := by
  obtain ⟨c, cs, hpack, t, ht⟩ := packFrom_head (emplaceBlock f.size f.bytes) fs
  rw [emplaceBlock_bytes] at ht
  have hf := f.six_le_size
  unfold Frame.size at hf
  have hblocks : M.message.dataBuffer = c :: cs := by
    rw [WireMessage.message, hM]
    exact hpack
  have hlen : FLAGS_FIELD_OFFSET + 2 ≤ c.size := by
    rw [Block.size, ← ht, length_append]
    simp only [FLAGS_FIELD_OFFSET]
    omega
  have hflags : frameFlags (f.bytes ++ t) = f.flags :=
    frameFlags_of_prefix prefix_rfl (by rw [length_append]; omega)
  rw [ht] at hflags
  unfold ClientMessage.getHeaderFlags ClientMessage.load
  rw [hblocks]
  simp only [if_pos hlen, Except.map]
  exact congrArg Except.ok hflags

theorem acceptMessage_unfragmented (hM : M.Unfragmented) :
    acceptMessage p M.message = .ok ⟨none, p, [M.message]⟩ := by
  cases hframes : M.frames with
  | nil => exact absurd hframes M.frames_ne_nil
  | cons f fs =>
    have hflag := hM f (by simp [hframes])
    have hheader : M.message.wrapForRead.getHeaderFlags = .ok f.flags :=
      getHeaderFlags_message hframes
    unfold acceptMessage
    simp only [hheader, bind, Except.bind, hflag, if_true]
    rfl

theorem accepts_unfragmented (h : ∀ M ∈ ms, M.Unfragmented) :
    Accepts p ms p (ms.map WireMessage.message) := by
  induction ms with
  | nil => exact Accepts.nil p
  | cons M ms ih =>
    exact Accepts.cons (acceptMessage_unfragmented p (h M mem_cons_self))
      (ih fun N hN => h N (mem_cons_of_mem _ hN))

/-- A delivered message is `frames`: its bytes are those of the frames, and every
block is the concatenation of consecutive whole frames. -/
def DeliveredAs (d : ClientMessage) (frames : List Frame) : Prop :=
  d.contents.flatten = frameBytes frames ∧
    ∃ groups : List (List Frame), groups.flatten = frames ∧
      d.contents = groups.map frameBytes

theorem deliveredAs_message (M : WireMessage) : DeliveredAs M.message M.frames := by
  obtain ⟨groups, hflat, hmap⟩ := packFrames_contents M.frames
  have hcontents : M.message.contents = groups.map frameBytes := hmap
  refine ⟨?_, groups, hflat, hcontents⟩
  rw [hcontents, ← hflat]
  simp only [frameBytes, flatMap_def, map_flatten, flatten_flatten,
    map_map]
  rfl

/-- Message delivery does not depend on how the bytes arrive: for every read
buffer and every cut of the stream into reads that fit it, exactly the messages
of the stream are handled, in order, byte for byte and with no frame split, if and
only if no read brings the rest of a frame and more bytes of the next header. -/
theorem readAll_delivers_iff (capacity : ℕ) (ms : List WireMessage)
    (hms : ∀ M ∈ ms, M.Unfragmented) (chunks : List (List UInt8))
    (hcut : chunks.flatten = wire ms)
    (hfit : (ofCapacity capacity).ReadsFit chunks) :
    (∃ h, (ofCapacity capacity).readAll chunks = .ok h ∧
      h.delivered.length = ms.length ∧
      List.Forall₂ (fun d M => DeliveredAs d M.frames) h.delivered ms) ↔
    (ofCapacity capacity).ReadsClear chunks := by
  rcases readAll_accepts capacity ms (accepts_unfragmented _ hms) chunks hcut hfit with
    ⟨hoverlaps, herror⟩ | ⟨hclear, h, hread, -, hdelivered⟩
  · refine iff_of_false ?_ hoverlaps
    rintro ⟨h, hread, -⟩
    cases herror.symm.trans hread
  · refine iff_of_true ⟨h, hread, by simp [hdelivered], ?_⟩ hclear
    rw [hdelivered, List.forall₂_map_left_iff]
    exact List.forall₂_same.mpr fun M _ => deliveredAs_message M

/-- A message of one frame with a byte of content. -/
def shortResponse : WireMessage where
  frames := [⟨[7, 0, 0, 0, 0, 0xe0, 9], by decide, by decide⟩]
  terminated := by
    show isFlagSet _ _ = true
    decide

def emptyResponse : WireMessage where
  frames := [⟨[6, 0, 0, 0, 0, 0xe0], by decide, by decide⟩]
  terminated := by
    show isFlagSet _ _ = true
    decide

/-- A message of two frames. -/
def twoFrames : WireMessage where
  frames := [⟨[7, 0, 0, 0, 0, 0xc0, 1], by decide, by decide⟩,
    ⟨[8, 0, 0, 0, 0, 0x20, 2, 3], by decide, by decide⟩]
  terminated := by
    show isFlagSet _ _ = false ∧ isFlagSet _ _ = true
    decide

/-- Reads that cut headers and frames. -/
theorem readAll_delivers_iff_twoFrames :
    ∃ h, (ofCapacity 9).readAll
        [[7, 0, 0], [0, 0], [0xc0, 1, 8, 0], [0, 0, 0, 0x20, 2], [3], [6, 0, 0, 0, 0], [0xe0]] =
          .ok h ∧
      h.delivered.length = 2 ∧
      List.Forall₂ (fun d M => DeliveredAs d (WireMessage.frames M)) h.delivered
        [twoFrames, emptyResponse] :=
  (readAll_delivers_iff 9 [twoFrames, emptyResponse]
    (by simp [WireMessage.Unfragmented, twoFrames, emptyResponse]; decide) _ (by decide)
    (by decide +kernel)).mpr (by decide +kernel)

/-- The second read brings the last byte of a frame and five bytes of the next header. They
are moved by one byte, onto themselves. In other reads the same bytes are two messages. -/
theorem compact_overlaps :
    [[7, 0, 0, 0, 0, 0xe0], [9, 6, 0, 0, 0, 0], [0xe0]].flatten =
        wire [shortResponse, emptyResponse] ∧
      (ofCapacity 8).ReadsFit [[7, 0, 0, 0, 0, 0xe0], [9, 6, 0, 0, 0, 0], [0xe0]] ∧
      ((ofCapacity 8).readAll [[7, 0, 0, 0, 0, 0xe0], [9, 6, 0, 0, 0, 0], [0xe0]]).map
        (fun h => h.delivered.length) = .error .undefinedBehaviour ∧
      ((ofCapacity 8).readAll [[7, 0, 0, 0, 0, 0xe0, 9], [6, 0, 0, 0, 0, 0xe0]]).map
        (fun h => h.delivered.length) = .ok 2 := by
  decide +kernel

end HazelcastClient.Protocol
