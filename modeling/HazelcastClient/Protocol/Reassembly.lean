import HazelcastClient.Protocol.Fragments

/-!
# Reassembly of fragmented messages

`acceptItems` is what the builder makes of a coherent stream of whole messages
and fragments. The fragments of one message may be interleaved with anything
that has another fragmentation id (`Interleaves`); after the last one the
builder hands over a message whose blocks are those of the pieces
(`acceptItems_window`).
-/

namespace HazelcastClient.Protocol

open LittleEndian List Function

open ClientMessage ClientMessage Item ReadHandler

/-! ## One fragment -/

/-- The blocks after `drop_fragmentation_frame`. -/
def eraseFirst (n : ℕ) : List Block → List Block
  | [] => []
  | b :: bs => b.eraseFront n :: bs

/-- The message that a fragment contributes, as `on_data` leaves its cursor. -/
def fragmentMessage (kind : FragmentKind) (id : FragmentationId) (frames : List OpenFrame) :
    ClientMessage where
  dataBuffer := eraseFirst (FRAGMENTATION_ID_OFFSET + INT64_SIZE)
    (packFrames (markLast (fragmentationFrame kind id :: frames)))
  offset := FRAGMENTATION_ID_OFFSET + INT64_SIZE

def pieceContents (piece : List OpenFrame) : List (List UInt8) :=
  contentsOf (packFrom (Block.reserve FRAGMENT_ROOM) (markLast piece))

theorem contentsOf_eraseFirst (erased : List UInt8) (b c : Block) (fs : List Frame)
    (hb : b.bytes = erased ++ c.bytes) (hcap : b.capacity = erased.length + c.capacity) :
    contentsOf (eraseFirst erased.length (packFrom b fs)) = contentsOf (packFrom c fs) := by
  induction fs generalizing b c with
  | nil => simp [packFrom, eraseFirst, hb]
  | cons f fs ih =>
    have hsize : b.size = erased.length + c.size := by
      rw [Block.size, hb, length_append, Block.size]
    have hiff : fits b f.size ↔ fits c f.size := by
      rw [fits_iff, fits_iff, hcap, hsize, Nat.add_sub_add_left]
    unfold packFrom
    by_cases hfit : fits b f.size
    · rw [if_pos hfit, if_pos (hiff.mp hfit)]
      refine ih _ _ (by simp [hb]) ?_
      rw [insertEnd_capacity_of_fits hfit, insertEnd_capacity_of_fits (hiff.mp hfit), hcap]
    · rw [if_neg hfit, if_neg (fun h => hfit (hiff.mpr h))]
      simp [eraseFirst, hb]

theorem fragmentMessage_contents (kind : FragmentKind) (id : FragmentationId)
    (frames : List OpenFrame) :
    (fragmentMessage kind id frames).contents = pieceContents frames := by
  have hmark : markLast (fragmentationFrame kind id :: frames) =
      fragmentHead kind id frames :: markLast frames := markLast_cons _ _
  obtain ⟨g, -, hbytes⟩ := fragmentHead_bytes kind id frames
  have hlen : (fragmentHead kind id frames).bytes.length = 14 := by
    rw [hbytes]
    simp
  have h := contentsOf_eraseFirst (fragmentHead kind id frames).bytes
    (emplaceBlock (fragmentHead kind id frames).size (fragmentHead kind id frames).bytes)
    (Block.reserve FRAGMENT_ROOM) (markLast frames) (by simp [emplaceBlock_bytes])
    (by rw [emplaceBlock_frame_capacity, Frame.size, hlen]; rfl)
  rw [hlen] at h
  unfold fragmentMessage
  rw [hmark]
  exact h

theorem rdPtr_inside {m : ClientMessage} {c : Block} {n : ℕ}
    (hc : m.dataBuffer[m.bufferIndex]? = some c) (hn : n ≠ 0) (hle : m.offset + n ≤ c.size)
    (hlt : m.offset + n < SIZE_T_MODULUS) :
    m.rdPtr n = (.ok ((c.bytes.drop m.offset).take n), { m with offset := m.offset + n }) := by
  have hin : ¬ c.size ≤ m.offset := by omega
  unfold rdPtr peek peekIn
  rw [if_neg hn]
  simp only [hc, if_neg hin, Nat.mod_eq_of_lt hlt]
  rw [if_neg (Nat.not_lt.mpr hle)]
  simp only [Nat.mod_eq_of_lt hlt]

/-- What `on_data` does with a complete fragment. -/
theorem acceptMessage_fragment (p : MessageMap) (kind : FragmentKind) (id : FragmentationId)
    (frames : List OpenFrame) :
    acceptMessage p (fragment kind id frames).toWire.message =
      .ok (if kind = .first then
          ⟨none, update p id.1 (some (fragmentMessage kind id frames)), []⟩
        else appendExistingPartialMessage p id.1 (fragmentMessage kind id frames)
          (decide (kind = .last))) := by
  have hmark : (fragment kind id frames).toWire.frames =
      fragmentHead kind id frames :: markLast frames := markLast_cons _ _
  obtain ⟨hwhole, hbegin, hend⟩ := fragmentHead_flags kind id frames
  obtain ⟨g, -, hbytes⟩ := fragmentHead_bytes kind id frames
  obtain ⟨c, cs, hpack, t, ht⟩ := packFrom_head
    (emplaceBlock (fragmentHead kind id frames).size (fragmentHead kind id frames).bytes)
    (markLast frames)
  rw [emplaceBlock_bytes, hbytes] at ht
  have hsize : 14 ≤ c.size := by
    rw [Block.size, ← ht]
    simp
  have hbuf : (fragment kind id frames).toWire.message = { dataBuffer := c :: cs } := by
    rw [WireMessage.message, hmark, packFrames, hpack]
    rfl
  have hflags := getHeaderFlags_message hmark
  rw [hbuf] at hflags ⊢
  have hskip := rdPtr_inside (m := { dataBuffer := c :: cs }) (n := FRAGMENTATION_ID_OFFSET)
    (c := c) rfl (by decide) (by simp [FRAGMENTATION_ID_OFFSET]; omega)
    (by simp [FRAGMENTATION_ID_OFFSET, SIZE_T_MODULUS])
  have hread := rdPtr_inside
    (m := { dataBuffer := c :: cs, offset := FRAGMENTATION_ID_OFFSET }) (n := INT64_SIZE)
    (c := c) rfl (by decide) hsize
    (by simp [FRAGMENTATION_ID_OFFSET, INT64_SIZE, SIZE_T_MODULUS])
  have hid : toSigned 8 (leNat ((c.bytes.drop FRAGMENTATION_ID_OFFSET).take INT64_SIZE)) =
      id.1 := by
    rw [← toSigned_fragmentationId id, ← ht]
    simp [FRAGMENTATION_ID_OFFSET, INT64_SIZE]
  have hdrop : dropFragmentationFrame
      { dataBuffer := c :: cs, offset := FRAGMENTATION_ID_OFFSET + INT64_SIZE } =
        .ok (fragmentMessage kind id frames) := by
    have hle : FRAGMENTATION_ID_OFFSET + INT64_SIZE ≤ c.size := hsize
    unfold dropFragmentationFrame fragmentMessage
    simp only [if_pos hle]
    rw [show markLast (fragmentationFrame kind id :: frames) =
      fragmentHead kind id frames :: markLast frames from hmark, packFrames, hpack]
    rfl
  have hflags' : getHeaderFlags
      { dataBuffer := c :: cs, offset := FRAGMENTATION_ID_OFFSET + INT64_SIZE } =
        .ok (fragmentHead kind id frames).flags := hflags
  simp only [Nat.zero_add] at hskip
  unfold acceptMessage
  simp only [wrapForRead, hflags, hskip, hread, hflags', hdrop, hid, hwhole, hbegin, hend, bind,
    Except.bind, Bool.false_eq_true, if_false, decide_eq_true_eq]
  split <;> rfl

/-! ## Streams of items -/

def acceptItem (p : MessageMap) : Item → MessageMap × List ClientMessage
  | .whole f fs _ => (p, [(sealFrames f fs).message])
  | .fragment .first id frames =>
    (update p id.1 (some (fragmentMessage .first id frames)), [])
  | .fragment .middle id frames =>
    (update p id.1 ((p id.1).map (·.append (fragmentMessage .middle id frames))), [])
  | .fragment .last id frames =>
    (update p id.1 none,
      ((p id.1).map fun found =>
        (found.append (fragmentMessage .last id frames)).wrapForRead).toList)

def acceptItems (p : MessageMap) : List Item → MessageMap × List ClientMessage
  | [] => (p, [])
  | i :: is =>
    ((acceptItems (acceptItem p i).1 is).1,
      (acceptItem p i).2 ++ (acceptItems (acceptItem p i).1 is).2)

theorem acceptItems_append (p : MessageMap) (is js : List Item) :
    acceptItems p (is ++ js) =
      ((acceptItems (acceptItems p is).1 js).1,
        (acceptItems p is).2 ++ (acceptItems (acceptItems p is).1 js).2) := by
  induction is generalizing p with
  | nil => rfl
  | cons i is ih => simp only [cons_append, acceptItems, ih, append_assoc]

/-- Every fragment but the first of a message finds its id open. -/
def Coherent (isOpen : FragmentationId → Bool) : List Item → Prop
  | [] => True
  | .whole _ _ _ :: is => Coherent isOpen is
  | .fragment .first id _ :: is => Coherent (update isOpen id true) is
  | .fragment .middle id _ :: is => isOpen id = true ∧ Coherent isOpen is
  | .fragment .last id _ :: is =>
    isOpen id = true ∧ Coherent (update isOpen id false) is

/-- The partial messages cover the open ids. -/
def Covers (p : MessageMap) (isOpen : FragmentationId → Bool) : Prop :=
  ∀ id, isOpen id = true → ∃ found, p id.1 = some found

variable {p : MessageMap} {isOpen : FragmentationId → Bool} {id : FragmentationId}
  {window : List Item} {fs : List Frame} {pieces : List (List OpenFrame)} {f : Frame}
  {frs : List Item} {is : List Item}

theorem Covers.update_some (h : Covers p isOpen) (id : FragmentationId) (m : ClientMessage) :
    Covers (update p id.1 (some m)) (update isOpen id true) := by
  intro j hj
  by_cases hij : j = id
  · exact ⟨m, by rw [hij, update_self]⟩
  · rw [update_of_ne hij] at hj
    rw [update_of_ne (fun h => hij (Subtype.ext h))]
    exact h j hj

theorem Covers.update_open (h : Covers p isOpen) (hid : isOpen id = true) (m : ClientMessage) :
    Covers (update p id.1 (some m)) isOpen := by
  have hcov := h.update_some id m
  rwa [← hid, update_eq_self] at hcov

theorem Covers.update_none (h : Covers p isOpen) (id : FragmentationId) :
    Covers (update p id.1 none) (update isOpen id false) := by
  intro j hj
  by_cases hij : j = id
  · rw [hij, update_self] at hj
    exact absurd hj (by simp)
  · rw [update_of_ne hij] at hj
    rw [update_of_ne (fun h => hij (Subtype.ext h))]
    exact h j hj

/-- The builder does with one item what `acceptItem` says, and hands over a
message exactly for the items that complete one. -/
theorem accept_step {i : Item} (hcov : Covers p isOpen) (hcoh : Coherent isOpen (i :: is)) :
    acceptMessage p i.toWire.message = .ok ⟨none, (acceptItem p i).1, (acceptItem p i).2⟩ ∧
      (acceptItem p i).2.length = (if i.completes then 1 else 0) ∧
      ∃ isOpen', Covers (acceptItem p i).1 isOpen' ∧ Coherent isOpen' is := by
  match i, hcoh with
  | .whole f fs h, hcoh =>
    exact ⟨acceptMessage_unfragmented p h, rfl, isOpen, hcov, hcoh⟩
  | .fragment .first id frames, hcoh =>
    refine ⟨?_, rfl, _, hcov.update_some id _, hcoh⟩
    rw [acceptMessage_fragment]
    rfl
  | .fragment .middle id frames, ⟨hid, hcoh⟩ =>
    obtain ⟨found, hfound⟩ := hcov id hid
    refine ⟨?_, rfl, isOpen, ?_, hcoh⟩
    · rw [acceptMessage_fragment]
      simp [appendExistingPartialMessage, acceptItem, hfound]
    · simp only [acceptItem, hfound, Option.map_some]
      exact hcov.update_open hid _
  | .fragment .last id frames, ⟨hid, hcoh⟩ =>
    obtain ⟨found, hfound⟩ := hcov id hid
    refine ⟨?_, ?_, _, hcov.update_none id, hcoh⟩
    · rw [acceptMessage_fragment]
      simp [appendExistingPartialMessage, acceptItem, hfound]
    · simp [acceptItem, hfound, completes]

theorem accepts_items (items : List Item) (hcov : Covers p isOpen) (hcoh : Coherent isOpen items) :
    Accepts p (items.map toWire) (acceptItems p items).1 (acceptItems p items).2 := by
  induction items generalizing p isOpen with
  | nil => exact Accepts.nil p
  | cons i is ih =>
    obtain ⟨hacc, -, isOpen', hcov', hcoh'⟩ := accept_step hcov hcoh
    exact Accepts.cons hacc (ih hcov' hcoh')

theorem length_acceptItems (items later : List Item) (hcov : Covers p isOpen)
    (hcoh : Coherent isOpen (items ++ later)) :
    (acceptItems p items).2.length = items.countP completes := by
  induction items generalizing p isOpen with
  | nil => rfl
  | cons i is ih =>
    obtain ⟨-, hlen, isOpen', hcov', hcoh'⟩ := accept_step hcov hcoh
    rw [acceptItems, length_append, hlen, ih hcov' hcoh', countP_cons]
    omega

/-! ## The fragments of one message -/

def laterFragments (id : FragmentationId) : List (List OpenFrame) → List Item
  | [] => []
  | [piece] => [.fragment .last id piece]
  | piece :: next :: pieces => .fragment .middle id piece :: laterFragments id (next :: pieces)

def fragmentsOf (id : FragmentationId) : List (List OpenFrame) → List Item
  | [] => []
  | piece :: pieces => .fragment .first id piece :: laterFragments id pieces

/-- The fragments in their order, with items of other ids between them, up to
the last fragment. -/
inductive Interleaves (id : FragmentationId) : List Item → List Item → Prop
  | last (i : Item) : Interleaves id [i] [i]
  | next (i : Item) {is window : List Item} (h : Interleaves id is window) :
      Interleaves id (i :: is) (i :: window)
  | other {j : Item} {is window : List Item} (hj : j.hasId id = false)
      (h : Interleaves id is window) : Interleaves id is (j :: window)

theorem Interleaves.ne_nil (h : Interleaves id is window) : is ≠ [] := by
  induction h with
  | last i | next i h ih => simp
  | other hj h ih => exact ih

theorem acceptItem_other (p : MessageMap) {j : Item} (hj : j.hasId id = false) :
    (acceptItem p j).1 id.1 = p id.1 := by
  match j with
  | .whole f fs h => rfl
  | .fragment kind id' frames =>
    have hne : id.1 ≠ id'.1 := by
      intro h
      simp [hasId, Subtype.ext h.symm] at hj
    cases kind <;> exact update_of_ne hne _ _

/-- The last message handed over in the window has the contents `blocks`, and its
cursor is at the start. -/
def HandsOver (p : MessageMap) (window : List Item) (blocks : List (List UInt8)) : Prop :=
  ∃ out d, (acceptItems p window).2 = out ++ [d] ∧ d.contents = blocks ∧
    d.bufferIndex = 0 ∧ d.offset = 0

theorem HandsOver.cons {i : Item} {blocks : List (List UInt8)}
    (h : HandsOver (acceptItem p i).1 window blocks) :
    HandsOver p (i :: window) blocks := by
  obtain ⟨out, d, hout, hd⟩ := h
  exact ⟨(acceptItem p i).2 ++ out, d, by rw [acceptItems, hout, append_assoc], hd⟩

theorem append_contents (m n : ClientMessage) : (m.append n).contents = m.contents ++ n.contents := by
  simp only [contents, append, map_append, map_map]
  rfl

theorem handsOver_laterFragments (h : Interleaves id frs window) (pieces : List (List OpenFrame))
    (hfrs : frs = laterFragments id pieces) {found : ClientMessage} (hfound : p id.1 = some found) :
    HandsOver p window (found.contents ++ (pieces.map pieceContents).flatten) := by
  induction h generalizing pieces p found with
  | last i =>
    match pieces, hfrs with
    | [piece], hfrs =>
      rw [laterFragments, cons.injEq] at hfrs
      rw [hfrs.1]
      refine ⟨[], _, by simp only [acceptItems, acceptItem, hfound]; rfl, ?_, rfl, rfl⟩
      simp only [map_cons, map_nil, flatten_cons, flatten_nil,
        append_nil, ← fragmentMessage_contents .last id piece]
      exact append_contents _ _
    | _ :: _ :: [], hfrs => simp [laterFragments] at hfrs
    | _ :: _ :: _ :: _, hfrs => simp [laterFragments] at hfrs
  | @next i is window hwin ih =>
    match pieces, hfrs with
    | [piece], hfrs =>
      -- nothing may follow the last fragment
      rw [laterFragments, cons.injEq] at hfrs
      rw [hfrs.2] at hwin
      exact absurd rfl hwin.ne_nil
    | piece :: next :: pieces, hfrs =>
      rw [laterFragments, cons.injEq] at hfrs
      rw [hfrs.1]
      have hstep : (acceptItem p (.fragment .middle id piece)).1 id.1 =
          some (found.append (fragmentMessage .middle id piece)) := by
        simp [acceptItem, hfound]
      have hrest := ih (next :: pieces) hfrs.2 hstep
      rw [append_contents, fragmentMessage_contents, append_assoc] at hrest
      exact hrest.cons
  | @other j is window hj hwin ih =>
    have hsame := acceptItem_other p hj
    exact (ih pieces hfrs (hsame.trans hfound)).cons

/-- After the last fragment the builder hands over the pieces. -/
theorem acceptItems_window (h : Interleaves id frs window) (piece : List OpenFrame)
    (pieces : List (List OpenFrame)) (hne : pieces ≠ [])
    (hfrs : frs = fragmentsOf id (piece :: pieces)) (p : MessageMap) :
    HandsOver p window ((piece :: pieces).map pieceContents).flatten := by
  induction h generalizing p with
  | last i =>
    rw [fragmentsOf, cons.injEq] at hfrs
    match pieces, hne, hfrs.2 with
    | [_], _, h => simp [laterFragments] at h
    | _ :: _ :: _, _, h => simp [laterFragments] at h
  | @next i is window hwin ih =>
    rw [fragmentsOf, cons.injEq] at hfrs
    rw [hfrs.1]
    have hstep : (acceptItem p (.fragment .first id piece)).1 id.1 =
        some (fragmentMessage .first id piece) := by
      simp [acceptItem]
    have hrest := handsOver_laterFragments hwin pieces hfrs.2 hstep
    rw [fragmentMessage_contents] at hrest
    exact hrest.cons
  | @other j is window hj hwin ih =>
    exact (ih hfrs _).cons

/-! ## The reassembled message against the whole one -/

theorem frames_eq_of_frameBytes {gs : List Frame} (hsizes : fs.map Frame.size = gs.map Frame.size)
    (hbytes : frameBytes fs = frameBytes gs) : fs = gs := by
  induction fs generalizing gs with
  | nil =>
    rw [map_nil, eq_comm, map_eq_nil_iff] at hsizes
    exact hsizes.symm
  | cons f fs ih =>
    cases gs with
    | nil => simp at hsizes
    | cons g gs =>
      rw [map_cons, map_cons, cons.injEq] at hsizes
      rw [frameBytes_cons, frameBytes_cons] at hbytes
      obtain ⟨hf, hfs⟩ := append_inj hbytes hsizes.1
      rw [Frame.ext_bytes hf, ih hsizes.2 hfs]

theorem pieceContents_flatten (piece : List OpenFrame) :
    (pieceContents piece).flatten = frameBytes (markLast piece) := by
  rw [pieceContents, contentsOf_flatten, Block.reserve_bytes, nil_append]

def travelled (pieces : List (List OpenFrame)) : List Frame := (pieces.map markLast).flatten

theorem flatten_pieceContents (pieces : List (List OpenFrame)) :
    ((pieces.map pieceContents).flatten).flatten = frameBytes (travelled pieces) := by
  induction pieces with
  | nil => rfl
  | cons piece pieces ih =>
    rw [travelled] at ih ⊢
    rw [map_cons, flatten_cons, flatten_append, ih, pieceContents_flatten,
      map_cons, flatten_cons, frameBytes_append]

theorem map_size_travelled (pieces : List (List OpenFrame)) :
    (travelled pieces).map Frame.size = (markLast pieces.flatten).map Frame.size := by
  rw [map_size_markLast]
  induction pieces with
  | nil => rfl
  | cons piece pieces ih =>
    rw [travelled] at ih ⊢
    rw [map_cons, flatten_cons, map_append, ih, map_size_markLast,
      flatten_cons, map_append]

/-- Every piece that has a frame has a marked one. -/
theorem countP_isFinal_travelled (h : [] ∉ pieces) :
    (travelled pieces).countP Frame.isFinal = pieces.length := by
  induction pieces with
  | nil => rfl
  | cons piece pieces ih =>
    rw [mem_cons, not_or] at h
    have hrest := ih h.2
    rw [travelled] at hrest ⊢
    rw [map_cons, flatten_cons, countP_append, hrest, countP_isFinal_markLast,
      if_neg (fun hnil => h.1 hnil.symm), length_cons, Nat.add_comm]

theorem contentsOf_length_lt {b : Block} (hb : b.capacity < 2 ^ 63) (fs : List Frame) :
    ∀ x ∈ contentsOf (packFrom b fs), x.length < 2 ^ 63 := by
  induction fs generalizing b with
  | nil =>
    intro x hx
    rw [packFrom, contentsOf_cons, contentsOf_nil, mem_singleton] at hx
    rw [hx]
    exact lt_of_le_of_lt b.size_le_capacity hb
  | cons f fs ih =>
    have hf := f.size_lt
    unfold packFrom
    split
    · rename_i hfit
      exact ih (by rwa [insertEnd_capacity_of_fits hfit])
    · intro x hx
      rw [contentsOf_cons, mem_cons] at hx
      rcases hx with rfl | hx
      · exact lt_of_le_of_lt b.size_le_capacity hb
      · refine ih ?_ x hx
        rw [emplaceBlock_frame_capacity]
        unfold EXPECTED_DATA_BLOCK_SIZE
        omega

/-- `sameReads_iff` against a message whose frames arrived whole. -/
theorem sameReads_packFrames_iff {d : ClientMessage}
    (hd : d.contents = (pieces.map pieceContents).flatten) (hindex : d.bufferIndex = 0)
    (hoffset : d.offset = 0) :
    SameReads d (ofBlocks (packFrames (f :: fs))) ↔
      (pieces.map pieceContents).flatten = contentsOf (packFrames (f :: fs)) := by
  obtain ⟨ds, index, offset⟩ := d
  simp only at hindex hoffset
  subst hindex hoffset
  rw [← hd]
  have hf := f.six_le_size
  have hcap : (emplaceBlock f.size f.bytes).capacity < 2 ^ 63 := by
    have hlt := f.size_lt
    rw [emplaceBlock_frame_capacity]
    unfold EXPECTED_DATA_BLOCK_SIZE
    omega
  refine sameReads_iff (packFrom_blocks_ne_nil (emplaceBlock_ne_nil f) fs) ?_ ?_ ?_
  · obtain ⟨c, cs, hpack, hfront⟩ := packFrom_head (emplaceBlock f.size f.bytes) fs
    exact ⟨c, by rw [packFrames, hpack]; rfl, hf.trans hfront.length_le⟩
  · intro b hb
    have hmem : b.bytes ∈ (pieces.map pieceContents).flatten :=
      hd ▸ mem_map_of_mem hb
    obtain ⟨x, hx, hbx⟩ := mem_flatten.mp hmem
    obtain ⟨piece, -, rfl⟩ := mem_map.mp hx
    exact contentsOf_length_lt (by simp [FRAGMENT_ROOM]) _ _ hbx
  · intro b hb
    exact contentsOf_length_lt hcap fs _ (mem_map_of_mem hb)

/-- The marks on the pieces are never those of the whole message. -/
theorem contents_ne_whole {f : OpenFrame} {fs : List OpenFrame} (hsplit : pieces.flatten = f :: fs)
    (htwo : 2 ≤ pieces.length) :
    (pieces.map pieceContents).flatten ≠ contentsOf (packFrames (markLast (f :: fs))) := by
  intro h
  have hwhole := markLast_cons f fs
  rw [hwhole, packFrames] at h
  have hne : [] ∉ pieces := by
    intro hmem
    have hempty : [] ∈ (pieces.map pieceContents).flatten :=
      mem_flatten.mpr ⟨pieceContents [], mem_map_of_mem hmem, by
        simp [pieceContents, markLast, packFrom]⟩
    rw [h] at hempty
    exact nil_notMem_contentsOf (emplaceBlock_ne_nil _) _ hempty
  have hbytes := congrArg flatten h
  rw [flatten_pieceContents, contentsOf_flatten, emplaceBlock_bytes, ← frameBytes_cons,
    ← hwhole] at hbytes
  have hsizes := map_size_travelled pieces
  rw [hsplit] at hsizes
  have hcount := countP_isFinal_travelled hne
  rw [frames_eq_of_frameBytes hsizes hbytes, countP_isFinal_markLast] at hcount
  simp only [reduceCtorEq, if_false] at hcount
  omega

/-- Apart from the marks, the blocks agree exactly for aligned fragments. -/
theorem contents_eq_travelled_iff (hframes : travelled pieces = f :: fs) :
    (pieces.map pieceContents).flatten = contentsOf (packFrames (f :: fs)) ↔
      FragmentsAligned (0, 0) (pieces.map fun piece => piece.map fun g => g.1.size) := by
  -- a full block in front of the message makes it one of the blocks that follow
  let full : Block := ⟨[0], 1, le_refl _⟩
  have hnofit : ¬ fits full f.size := by
    have hf := f.six_le_size
    rw [fits_iff]
    change ¬ f.size ≤ 1 - 1
    omega
  have h := contents_fragments_iff full (by simp [full]) (pieces.map markLast)
  rw [show (pieces.map markLast).flatten = f :: fs from hframes, packFrom, if_neg hnofit,
    contentsOf_cons, cons.injEq, map_map, map_map] at h
  simp only [true_and] at h
  rw [eq_comm, packFrames]
  refine h.trans ?_
  have hmap : pieces.map ((fun fs => fs.map Frame.size) ∘ markLast) =
      pieces.map fun piece => piece.map fun g => g.1.size :=
    map_congr_left fun piece _ => map_size_markLast piece
  rw [hmap]
  -- a full block and no block leave the same room
  cases pieces with
  | nil => simp [FragmentsAligned]
  | cons piece pieces =>
    cases piece with
    | nil => simp [FragmentsAligned]
    | cons g gs => simp [FragmentsAligned, full, Block.size]

/-- The message handed over after the last fragment is the split message, but it
is never read like the message received whole, because the last frame of every
piece keeps its mark. With the marks taken as they travel, it is read like that
exactly when the fragments are aligned. If a read makes `compact` overlap, there is
no message at all. -/
theorem readAll_reassembles (capacity : ℕ) (id : FragmentationId) (f : OpenFrame)
    (fs : List OpenFrame) (pieces : List (List OpenFrame)) (hsplit : pieces.flatten = f :: fs)
    (htwo : 2 ≤ pieces.length) (before window after : List Item)
    (hwin : Interleaves id (fragmentsOf id pieces) window)
    (hcoh : Coherent (fun _ => false) (before ++ window ++ after))
    (chunks : List (List UInt8))
    (hcut : chunks.flatten = wire ((before ++ window ++ after).map toWire))
    (hfit : (ofCapacity capacity).ReadsFit chunks) :
    ((ofCapacity capacity).ReadsClear chunks → ∃ h d,
      (ofCapacity capacity).readAll chunks = .ok h ∧
        h.delivered[(before ++ window).countP completes - 1]? = some d ∧
        ¬ SameReads d (sealFrames f fs).message ∧
        (SameReads d (ofBlocks (packFrames (travelled pieces))) ↔
          FragmentsAligned (0, 0) (pieces.map fun piece => piece.map fun g => g.1.size))) ∧
    (¬ (ofCapacity capacity).ReadsClear chunks →
      (ofCapacity capacity).readAll chunks = .error .undefinedBehaviour) := by
  have hcov : Covers (fun _ => none) (fun _ => false) := by
    intro j hj
    exact absurd hj (by simp)
  rcases readAll_accepts capacity _ (accepts_items _ hcov hcoh) chunks hcut hfit with
    ⟨hoverlaps, herror⟩ | ⟨hclear, h, hread, -, hdelivered⟩
  · exact ⟨fun hclear => absurd hclear hoverlaps, fun _ => herror⟩
  refine ⟨fun _ => ?_, fun hoverlaps => absurd hclear hoverlaps⟩
  have hlen := length_acceptItems (before ++ window) after hcov hcoh
  rw [acceptItems_append (fun _ => none) (before ++ window) after] at hdelivered
  obtain ⟨piece, rest, rfl⟩ := exists_cons_of_length_pos (Nat.lt_of_lt_of_le (by decide) htwo)
  have hrest : rest ≠ [] := by
    rintro rfl
    simp at htwo
  obtain ⟨out, d, hout, hcontents, hindex, hoffset⟩ := acceptItems_window hwin piece rest hrest rfl
    (acceptItems (fun _ => none) before).1
  rw [acceptItems_append (fun _ => none) before window, hout] at hlen hdelivered
  refine ⟨h, d, hread, ?_, ?_, ?_⟩
  · rw [hdelivered, ← hlen]
    simp
  · intro hsame
    have hwhole : SameReads d (ofBlocks (packFrames (markLast (f :: fs)))) := hsame
    rw [markLast_cons, sameReads_packFrames_iff hcontents hindex hoffset, ← markLast_cons]
      at hwhole
    exact contents_ne_whole hsplit htwo hwhole
  · have hframes : travelled (piece :: rest) ≠ [] := by
      intro hnil
      have hsizes := map_size_travelled (piece :: rest)
      rw [hnil, hsplit, markLast_cons] at hsizes
      simp at hsizes
    obtain ⟨g, gs, hgs⟩ := exists_cons_of_ne_nil hframes
    rw [hgs, sameReads_packFrames_iff hcontents hindex hoffset]
    exact contents_eq_travelled_iff hgs

def headerFrame : OpenFrame :=
  ⟨⟨leBytes 4 22 ++ [0, 0xC0] ++ replicate 16 0, by decide, by decide⟩, by decide⟩

/-- A frame of 1011 bytes. It fits a block, but not behind a fragmentation frame. -/
def largeFrame : OpenFrame :=
  ⟨⟨leBytes 4 1011 ++ [0, 0] ++ replicate 1005 0, by decide +kernel, by decide +kernel⟩,
    by decide +kernel⟩

def nextHeader : Reader (List UInt8) :=
  .rdPtr 22 fun _ => .rdPtr SIZE_OF_FRAME_LENGTH_AND_FLAGS .ret

def largeFragments : List Item := fragmentsOf ⟨1, by decide⟩ [[headerFrame], [largeFrame]]

/-- The first block of the second fragment is empty, and `peek` throws there. -/
theorem readAll_largeFragments :
    ((ofCapacity 2048).readAll [wire (largeFragments.map toWire)]).map
        (fun h => h.delivered.map nextHeader.run) =
      .ok [.error (.notEnoughBytes 6)] ∧
    nextHeader.run (sealFrames headerFrame [largeFrame]).message =
      .ok (leBytes 4 1011 ++ [0, 0x20]) := by
  constructor <;> decide +kernel

theorem readAll_reassembles_largeFragments :
    ∃ h d, (ofCapacity 2048).readAll [wire (largeFragments.map toWire)] = .ok h ∧
      h.delivered[0]? = some d ∧ ¬ SameReads d (sealFrames headerFrame [largeFrame]).message ∧
      (SameReads d (ofBlocks (packFrames (travelled [[headerFrame], [largeFrame]]))) ↔
        FragmentsAligned (0, 0) [[headerFrame.1.size], [largeFrame.1.size]]) :=
  (readAll_reassembles 2048 ⟨1, by decide⟩ headerFrame [largeFrame] [[headerFrame], [largeFrame]]
    rfl (by decide) [] largeFragments [] (.next _ (.last _)) ⟨rfl, trivial⟩
    [wire (largeFragments.map toWire)] (by simp) (by decide +kernel)).1 (by decide +kernel)

end HazelcastClient.Protocol
