import HazelcastClient.Protocol.Frame

/-!
# The layout of a message in fragments

A fragment starts with a fragmentation frame of 14 bytes that is erased from its
first block after it has been received. The frames of the fragment therefore lie
as if that block had only 1010 bytes, and every fragment starts a block of its
own. `FragmentsAligned` is the condition on the frame sizes under which the
blocks of the fragments, put together, are the blocks of the whole message
(`contents_fragments_iff`).
-/

namespace HazelcastClient.Protocol

open ClientMessage List Block

def FRAGMENT_ROOM : ℕ := 1010

def contentsOf (blocks : List Block) : List (List UInt8) := blocks.map bytes

@[simp] theorem contentsOf_nil : contentsOf [] = [] := rfl

@[simp] theorem contentsOf_cons (b : Block) (bs : List Block) :
    contentsOf (b :: bs) = b.bytes :: contentsOf bs := rfl

@[simp] theorem contentsOf_append (bs cs : List Block) :
    contentsOf (bs ++ cs) = contentsOf bs ++ contentsOf cs :=
  map_append

/-- The blocks that are full when the frames `fs` have followed the open block. -/
def closedBlocks (b : Block) : List Frame → List Block
  | [] => []
  | f :: fs =>
    if fits b f.size then closedBlocks (b.insertEnd f.bytes) fs
    else b :: closedBlocks (emplaceBlock f.size f.bytes) fs

def lastBlock (b : Block) : List Frame → Block
  | [] => b
  | f :: fs =>
    if fits b f.size then lastBlock (b.insertEnd f.bytes) fs
    else lastBlock (emplaceBlock f.size f.bytes) fs

theorem packFrom_append (b : Block) (fs gs : List Frame) :
    packFrom b (fs ++ gs) = closedBlocks b fs ++ packFrom (lastBlock b fs) gs := by
  induction fs generalizing b with
  | nil => rfl
  | cons f fs ih =>
    simp only [cons_append, packFrom, closedBlocks, lastBlock]
    split
    · exact ih _
    · rw [ih, cons_append]

theorem packFrom_eq (b : Block) (fs : List Frame) :
    packFrom b fs = closedBlocks b fs ++ [lastBlock b fs] := by
  have h := packFrom_append b fs []
  rwa [append_nil, packFrom] at h

variable {b : Block} {f : Frame}

theorem insertEnd_ne_nil : (b.insertEnd f.bytes).bytes ≠ [] := by
  simp [f.bytes_ne_nil]

theorem emplaceBlock_ne_nil (f : Frame) : (emplaceBlock f.size f.bytes).bytes ≠ [] :=
  f.bytes_ne_nil

theorem lastBlock_ne_nil (hb : b.bytes ≠ []) (fs : List Frame) :
    (lastBlock b fs).bytes ≠ [] := by
  induction fs generalizing b with
  | nil => exact hb
  | cons f fs ih =>
    unfold lastBlock
    split
    · exact ih insertEnd_ne_nil
    · exact ih (emplaceBlock_ne_nil f)

theorem packFrom_blocks_ne_nil (hb : b.bytes ≠ []) (fs : List Frame) :
    ∀ c ∈ packFrom b fs, c.bytes ≠ [] := by
  induction fs generalizing b with
  | nil =>
    intro c hc
    rw [packFrom, mem_singleton] at hc
    exact hc ▸ hb
  | cons f fs ih =>
    unfold packFrom
    split
    · exact ih insertEnd_ne_nil
    · intro c hc
      rcases mem_cons.mp hc with rfl | hc
      · exact hb
      · exact ih (emplaceBlock_ne_nil f) c hc

theorem nil_notMem_contentsOf (hb : b.bytes ≠ []) (fs : List Frame) :
    [] ∉ contentsOf (packFrom b fs) := by
  intro h
  obtain ⟨c, hc, hnil⟩ := mem_map.mp h
  exact packFrom_blocks_ne_nil hb fs c hc hnil

theorem contentsOf_flatten (b : Block) (fs : List Frame) :
    (contentsOf (packFrom b fs)).flatten = b.bytes ++ frameBytes fs := by
  induction fs generalizing b with
  | nil => simp [packFrom, contentsOf]
  | cons f fs ih =>
    unfold packFrom
    split
    · rw [ih, insertEnd_bytes, frameBytes_cons, append_assoc]
    · rw [contentsOf_cons, flatten_cons, ih, emplaceBlock_bytes, frameBytes_cons]

/-- A frame that fits makes the open block longer than it was. -/
theorem contentsOf_packFrom_ne {fs : List Frame} (hfit : fits b f.size) (rest : List (List UInt8)) :
    contentsOf (packFrom b (f :: fs)) ≠ b.bytes :: rest := by
  intro h
  rw [packFrom, if_pos hfit] at h
  obtain ⟨c, cs, hc, t, ht⟩ := packFrom_head (b.insertEnd f.bytes) fs
  rw [hc, contentsOf_cons, List.cons.injEq] at h
  have hlen := congrArg List.length (ht.trans h.1)
  have hf := f.six_le_size
  unfold Frame.size at hf
  simp only [insertEnd_bytes, length_append] at hlen
  omega

/-! ## The condition on the sizes -/

/-- The open block, as its size and its capacity, after one more frame. -/
def putSize (o : ℕ × ℕ) (n : ℕ) : ℕ × ℕ :=
  if n ≤ o.2 - o.1 then (o.1 + n, o.2) else (n, max EXPECTED_DATA_BLOCK_SIZE n)

/-- The bytes of the open block when the first frame comes that does not fit. -/
def firstBlockSize : ℕ → ℕ → List ℕ → ℕ
  | used, _, [] => used
  | used, capacity, n :: ns =>
    if n ≤ capacity - used then firstBlockSize (used + n) capacity ns else used

/-- The sizes of the frames of every fragment, behind an open block. Each
fragment has a frame, its first frame opens a block, and what it puts into that
block leaves room for the fragmentation frame. -/
def FragmentsAligned : ℕ × ℕ → List (List ℕ) → Prop
  | _, [] => True
  | _, [] :: _ => False
  | o, (n :: ns) :: rest =>
    o.2 - o.1 < n ∧ firstBlockSize n (max EXPECTED_DATA_BLOCK_SIZE n) ns ≤ FRAGMENT_ROOM ∧
      FragmentsAligned (ns.foldl putSize (n, max EXPECTED_DATA_BLOCK_SIZE n)) rest

theorem le_firstBlockSize (used capacity : ℕ) (ns : List ℕ) :
    used ≤ firstBlockSize used capacity ns := by
  induction ns generalizing used with
  | nil => exact le_refl _
  | cons n ns ih =>
    unfold firstBlockSize
    split
    · exact (Nat.le_add_right _ _).trans (ih _)
    · exact le_refl _

theorem fits_iff (b : Block) (n : ℕ) : fits b n ↔ n ≤ b.capacity - b.size := by
  unfold fits
  omega

theorem insertEnd_size (b : Block) (src : List UInt8) :
    (b.insertEnd src).size = b.size + src.length := by
  simp [Block.size]

theorem insertEnd_capacity_of_fits (h : fits b f.size) :
    (b.insertEnd f.bytes).capacity = b.capacity := by
  have hb := b.size_le_capacity
  rw [fits_iff] at h
  apply insertEnd_capacity_of_le
  unfold Frame.size Block.size at *
  omega

theorem emplaceBlock_frame_capacity (f : Frame) :
    (emplaceBlock f.size f.bytes).capacity = max EXPECTED_DATA_BLOCK_SIZE f.size :=
  emplaceBlock_capacity (le_refl _)

theorem foldl_putSize (b : Block) (fs : List Frame) :
    (fs.map Frame.size).foldl putSize (b.size, b.capacity) =
      ((lastBlock b fs).size, (lastBlock b fs).capacity) := by
  induction fs generalizing b with
  | nil => rfl
  | cons f fs ih =>
    rw [map_cons, foldl_cons, lastBlock, putSize]
    by_cases h : fits b f.size
    · rw [if_pos h, if_pos ((fits_iff b _).mp h), ← ih, insertEnd_size,
        insertEnd_capacity_of_fits h, Frame.size]
    · rw [if_neg h, if_neg (fun hle => h ((fits_iff b _).mpr hle)), ← ih,
        emplaceBlock_frame_capacity, Block.size, emplaceBlock_bytes, Frame.size]

/-! ## Fragments against the whole message -/

/-- The frames of one fragment behind the first one. `a` is the block they share
with the whole message, `c` the same bytes in a block with room for the
fragmentation frame; `rest` is what the later fragments contribute. -/
theorem contents_fragment_iff (a c : Block) (fs gs : List Frame) (rest : List (List UInt8))
    (hbytes : a.bytes = c.bytes) (ha : a.capacity = EXPECTED_DATA_BLOCK_SIZE)
    (hc : c.capacity = FRAGMENT_ROOM) (hsize : a.size ≤ FRAGMENT_ROOM) :
    contentsOf (packFrom a (fs ++ gs)) = contentsOf (packFrom c fs) ++ rest ↔
      firstBlockSize a.size EXPECTED_DATA_BLOCK_SIZE (fs.map Frame.size) ≤ FRAGMENT_ROOM ∧
        contentsOf (packFrom (lastBlock a fs) gs) = (lastBlock a fs).bytes :: rest := by
  have hsizes : a.size = c.size := congrArg List.length hbytes
  induction fs generalizing a c with
  | nil => simp [packFrom, contentsOf, firstBlockSize, lastBlock, hsize, hbytes]
  | cons f fs ih =>
    rw [map_cons, firstBlockSize, cons_append]
    by_cases hfc : fits c f.size
    · -- the frame fits both blocks
      have hle := (fits_iff c _).mp hfc
      rw [hc, ← hsizes] at hle
      have hfa : fits a f.size := by
        rw [fits_iff, ha]
        unfold FRAGMENT_ROOM EXPECTED_DATA_BLOCK_SIZE at *
        omega
      have hle' := (fits_iff a _).mp hfa
      rw [ha] at hle'
      have hgrow := insertEnd_size a f.bytes
      rw [packFrom, if_pos hfa, packFrom, if_pos hfc, lastBlock, if_pos hfa, if_pos hle',
        Frame.size, ← hgrow]
      refine ih _ _ (by simp [hbytes]) ?_ ?_ ?_ ?_
      · rw [insertEnd_capacity_of_fits hfa, ha]
      · rw [insertEnd_capacity_of_fits hfc, hc]
      · have hf : f.bytes.length = f.size := rfl
        rw [hgrow]
        omega
      · rw [hgrow, insertEnd_size, hsizes]
    · have hlt : FRAGMENT_ROOM < a.size + f.size := by
        rw [fits_iff, hc, ← hsizes] at hfc
        omega
      rw [packFrom.eq_2 c, if_neg hfc]
      by_cases hfa : fits a f.size
      · -- it only fits where no fragmentation frame has been
        have hle := (fits_iff a _).mp hfa
        rw [ha] at hle
        have hge := le_firstBlockSize (a.size + f.size) EXPECTED_DATA_BLOCK_SIZE
          (fs.map Frame.size)
        rw [if_pos hle]
        constructor
        · intro h
          rw [contentsOf_cons, ← hbytes, cons_append] at h
          exact absurd h (contentsOf_packFrom_ne hfa _)
        · rintro ⟨h, -⟩
          omega
      · -- it opens a block in both
        have hle : ¬ f.size ≤ EXPECTED_DATA_BLOCK_SIZE - a.size := by
          rw [← ha]
          exact fun h => hfa ((fits_iff a _).mpr h)
        rw [packFrom, if_neg hfa, lastBlock, if_neg hfa, if_neg hle, packFrom_append,
          packFrom_eq (emplaceBlock f.size f.bytes) fs]
        simp only [contentsOf_cons, contentsOf_append, contentsOf_nil, hbytes,
          cons_append, append_assoc, List.cons.injEq, true_and,
          append_cancel_left_eq, nil_append, hsize]

/-- The blocks of the fragments are the blocks of the whole message exactly when
the fragments are aligned. -/
theorem contents_fragments_iff (b : Block) (hb : b.bytes ≠ []) (pieces : List (List Frame)) :
    contentsOf (packFrom b pieces.flatten) =
        b.bytes :: (pieces.map fun fs => contentsOf (packFrom (reserve FRAGMENT_ROOM) fs)).flatten ↔
      FragmentsAligned (b.size, b.capacity) (pieces.map fun fs => fs.map Frame.size) := by
  induction pieces generalizing b with
  | nil => simp [packFrom, contentsOf, FragmentsAligned]
  | cons piece pieces ih =>
    cases piece with
    | nil =>
      -- a fragment without frames leaves an empty block behind
      simp only [map_cons, map_nil, FragmentsAligned, iff_false]
      intro h
      have hmem : [] ∈ contentsOf (packFrom b ([] :: pieces).flatten) := by
        rw [h]
        simp [packFrom]
      exact nil_notMem_contentsOf hb _ hmem
    | cons f fs =>
      rw [flatten_cons, map_cons, map_cons, flatten_cons, map_cons,
        FragmentsAligned, cons_append]
      by_cases hfit : fits b f.size
      · -- the whole message goes on with the open block
        have hle := (fits_iff b _).mp hfit
        constructor
        · intro h
          exact absurd h (contentsOf_packFrom_ne hfit _)
        · rintro ⟨h, -⟩
          omega
      · have hlt : b.capacity - b.size < f.size := by
          rw [fits_iff] at hfit
          omega
        have hne := nil_notMem_contentsOf (emplaceBlock_ne_nil f) (fs ++ pieces.flatten)
        rw [packFrom, if_neg hfit, packFrom]
        by_cases hroom : f.size ≤ FRAGMENT_ROOM
        · have hcap : max EXPECTED_DATA_BLOCK_SIZE f.size = EXPECTED_DATA_BLOCK_SIZE :=
            max_eq_left (by unfold FRAGMENT_ROOM EXPECTED_DATA_BLOCK_SIZE at *; omega)
          have hfr : fits (reserve FRAGMENT_ROOM) f.size := by
            rw [fits_iff]
            exact hroom
          have hopen := foldl_putSize (emplaceBlock f.size f.bytes) fs
          rw [emplaceBlock_frame_capacity, hcap, Block.size, emplaceBlock_bytes] at hopen
          have hiff := contents_fragment_iff (emplaceBlock f.size f.bytes)
            ((reserve FRAGMENT_ROOM).insertEnd f.bytes) fs pieces.flatten
            (pieces.map fun fs => contentsOf (packFrom (reserve FRAGMENT_ROOM) fs)).flatten
            rfl (by rw [emplaceBlock_frame_capacity, hcap])
            (by rw [insertEnd_capacity_of_fits hfr]; rfl) hroom
          rw [ih _ (lastBlock_ne_nil (emplaceBlock_ne_nil f) fs)] at hiff
          rw [if_pos hfr, hcap, ← Frame.size] at *
          rw [hopen]
          simp only [contentsOf_cons, List.cons.injEq, true_and, hlt] at hiff ⊢
          exact hiff
        · -- the first frame leaves the block of the fragmentation frame empty
          have hfr : ¬ fits (reserve FRAGMENT_ROOM) f.size := by
            rw [fits_iff]
            exact hroom
          have hge := le_firstBlockSize f.size (max EXPECTED_DATA_BLOCK_SIZE f.size)
            (fs.map Frame.size)
          rw [if_neg hfr]
          constructor
          · intro h
            simp only [contentsOf_cons, List.cons.injEq, true_and,
              reserve_bytes, cons_append] at h
            refine absurd ?_ hne
            rw [h]
            exact mem_cons_self
          · rintro ⟨-, h, -⟩
            omega

example : FragmentsAligned (0, 0) [[22, 988], [20]] := by
  simp [FragmentsAligned, firstBlockSize, putSize, FRAGMENT_ROOM, EXPECTED_DATA_BLOCK_SIZE]

end HazelcastClient.Protocol
