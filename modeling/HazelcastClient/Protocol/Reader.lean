import HazelcastClient.Protocol.ClientMessage

/-!
# What a reader can see of a message

A `Reader` is a program over `peek` and `rd_ptr` that may choose its next call by
the bytes it has seen; the `get` functions of the source are such programs. Two
messages are `SameReads` when the three header getters and every reader give the
same result on both, exceptions included.

The capacities of the blocks are invisible, everything else is visible:
`sameReads_iff` says that two messages without empty blocks cannot be told apart
exactly when the contents of their blocks are equal, block by block.
-/

namespace HazelcastClient.Protocol

open ClientMessage List Option ClientMessage Block

inductive Reader (α : Type) where
  | ret (a : α)
  | peek (requested : ℕ) (next : List UInt8 → Reader α)
  | rdPtr (requested : ℕ) (next : List UInt8 → Reader α)

def Reader.run {α : Type} : Reader α → ClientMessage → Except Fault α
  | .ret a, _ => .ok a
  | .peek n next, m =>
    match m.peek n with
    | (.error e, _) => .error e
    | (.ok bytes, m') => (next bytes).run m'
  | .rdPtr n next, m =>
    match m.rdPtr n with
    | (.error e, _) => .error e
    | (.ok bytes, m') => (next bytes).run m'

/-- No reader tells the two messages apart. -/
def SameRuns (d u : ClientMessage) : Prop :=
  ∀ (α : Type) (r : Reader α), r.run d = r.run u

/-- The header getters and all readers agree on the two messages. -/
def SameReads (d u : ClientMessage) : Prop :=
  d.getHeaderFlags = u.getHeaderFlags ∧ d.getMessageType = u.getMessageType ∧
    d.getCorrelationId = u.getCorrelationId ∧ SameRuns d u

/-! ## Equal contents are read equally -/

/-- The blocks have the same contents and the cursors stand at the same place. -/
def SameContents (d u : ClientMessage) : Prop :=
  d.contents = u.contents ∧ d.bufferIndex = u.bufferIndex ∧ d.offset = u.offset

variable {d u : ClientMessage} {b : Block} {m : ClientMessage} {rest : List Block}

theorem peekIn_congr {c : Block} (h : b.bytes = c.bytes) (offset n : ℕ) :
    peekIn b offset n = peekIn c offset n := by
  unfold peekIn Block.size
  rw [h]

section

variable (h : SameContents d u)

include h

theorem SameContents.block (i : ℕ) :
    (d.dataBuffer[i]?).map bytes = (u.dataBuffer[i]?).map bytes := by
  rw [← List.getElem?_map, ← List.getElem?_map]
  exact congrArg (·[i]?) h.1

theorem SameContents.peek (n : ℕ) :
    (d.peek n).1 = (u.peek n).1 ∧ SameContents (d.peek n).2 (u.peek n).2 := by
  have hi := h.2.1
  have ho := h.2.2
  have hcur := h.block u.bufferIndex
  have hnext := h.block (u.bufferIndex + 1)
  unfold ClientMessage.peek
  rw [hi, ho]
  split
  · exact ⟨rfl, h⟩
  · cases hb : d.dataBuffer[u.bufferIndex]? with
    | none =>
      rw [hb] at hcur
      rw [map_none, eq_comm, map_eq_none_iff] at hcur
      simp only [hcur]
      exact ⟨trivial, h⟩
    | some b =>
      rw [hb] at hcur
      rw [map_some, eq_comm, map_eq_some_iff] at hcur
      obtain ⟨b', hb', hbytes⟩ := hcur
      have hsize : b'.size = b.size := congrArg List.length hbytes
      simp only [hb', hsize]
      split
      · cases hc : d.dataBuffer[u.bufferIndex + 1]? with
        | none =>
          rw [hc] at hnext
          rw [map_none, eq_comm, map_eq_none_iff] at hnext
          simp only [hnext]
          exact ⟨trivial, h.1, rfl, rfl⟩
        | some c =>
          rw [hc] at hnext
          rw [map_some, eq_comm, map_eq_some_iff] at hnext
          obtain ⟨c', hc', hbytes'⟩ := hnext
          simp only [hc']
          exact ⟨peekIn_congr hbytes'.symm 0 n, h.1, rfl, rfl⟩
      · exact ⟨peekIn_congr hbytes.symm _ n, h⟩

theorem SameContents.rdPtr (n : ℕ) :
    (d.rdPtr n).1 = (u.rdPtr n).1 ∧ SameContents (d.rdPtr n).2 (u.rdPtr n).2 := by
  obtain ⟨hres, hsame⟩ := h.peek n
  unfold ClientMessage.rdPtr
  rcases hd : d.peek n with ⟨rd, d'⟩
  rcases hu : u.peek n with ⟨ru, u'⟩
  rw [hd, hu] at hres hsame
  simp only at hres hsame
  subst hres
  cases rd with
  | error e => exact ⟨rfl, hsame⟩
  | ok bytes => exact ⟨rfl, hsame.1, hsame.2.1, by simp [hsame.2.2]⟩

theorem SameContents.load (offset n : ℕ) : d.load offset n = u.load offset n := by
  have hc := h.1
  unfold ClientMessage.load
  cases hd : d.dataBuffer with
  | nil =>
    cases hu : u.dataBuffer with
    | nil => rfl
    | cons c cs => simp [contents, hd, hu] at hc
  | cons b bs =>
    cases hu : u.dataBuffer with
    | nil => simp [contents, hd, hu] at hc
    | cons c cs =>
      simp only [contents, hd, hu, map_cons, List.cons.injEq] at hc
      by_cases hle : offset + n ≤ c.bytes.length <;> simp [Block.size, hc.1, hle]

end

theorem SameContents.run {α : Type} (r : Reader α) (h : SameContents d u) : r.run d = r.run u := by
  induction r generalizing d u with
  | ret a => rfl
  | peek n next ih =>
    obtain ⟨hres, hsame⟩ := h.peek n
    unfold Reader.run
    revert hres hsame
    rcases d.peek n with ⟨rd, d'⟩
    rcases u.peek n with ⟨ru, u'⟩
    rintro ⟨⟩ hsame
    cases rd with
    | error e => rfl
    | ok bytes => exact ih bytes hsame
  | rdPtr n next ih =>
    obtain ⟨hres, hsame⟩ := h.rdPtr n
    unfold Reader.run
    revert hres hsame
    rcases d.rdPtr n with ⟨rd, d'⟩
    rcases u.rdPtr n with ⟨ru, u'⟩
    rintro ⟨⟩ hsame
    cases rd with
    | error e => rfl
    | ok bytes => exact ih bytes hsame

theorem SameContents.sameReads (h : SameContents d u) : SameReads d u := by
  refine ⟨?_, ?_, ?_, fun _ r => h.run r⟩
  · rw [getHeaderFlags, getHeaderFlags, h.load]
  · rw [getMessageType, getMessageType, h.load]
  · rw [getCorrelationId, getCorrelationId, h.load]

/-! ## Different contents are read differently -/

/-- The blocks that the next read starts with: the current one when nothing of
it has been read, and the following ones when it has been read to its end. -/
def NextBlocks (m : ClientMessage) (rest : List Block) : Prop :=
  (m.offset = 0 ∧ rest = m.dataBuffer.drop m.bufferIndex ∧ ∃ b ∈ rest.head?, b.bytes ≠ []) ∨
    (∃ b, m.dataBuffer[m.bufferIndex]? = some b ∧ m.offset = b.size ∧
      rest = m.dataBuffer.drop (m.bufferIndex + 1))

theorem getElem?_of_drop_eq_cons {β : Type} {l rest : List β} {i : ℕ} {b : β}
    (h : b :: rest = l.drop i) : l[i]? = some b ∧ rest = l.drop (i + 1) := by
  have hlen : i < l.length := by
    by_contra hle
    rw [drop_eq_nil_of_le (Nat.le_of_not_lt hle)] at h
    exact absurd h (by simp)
  rw [drop_eq_getElem_cons hlen, List.cons.injEq] at h
  exact ⟨by rw [List.getElem?_eq_getElem hlen, h.1], h.2⟩

theorem peek_of_next_nil (h : NextBlocks m []) (n : ℕ) (hn : n ≠ 0) :
    (m.peek n).1 = .error (.noMoreBytes n) := by
  rcases h with ⟨-, -, b, hb, -⟩ | ⟨b, hb, ho, hrest⟩
  · simp at hb
  · have hnone : m.dataBuffer[m.bufferIndex + 1]? = none := by
      rw [List.getElem?_eq_none_iff]
      exact drop_eq_nil_iff.mp hrest.symm
    unfold peek
    rw [if_neg hn]
    simp only [hb, if_pos (le_of_eq ho.symm), hnone]

theorem peek_of_next_cons (h : NextBlocks m (b :: rest)) (n : ℕ) (hn : n ≠ 0) :
    (m.peek n).1 = peekIn b 0 n ∧ (m.peek n).2.dataBuffer = m.dataBuffer ∧
      (m.peek n).2.offset = 0 ∧ b :: rest = m.dataBuffer.drop (m.peek n).2.bufferIndex := by
  unfold peek
  rw [if_neg hn]
  rcases h with ⟨ho, hrest, c, hc, hne⟩ | ⟨c, hc, ho, hrest⟩
  · have hb := (getElem?_of_drop_eq_cons hrest).1
    have hpos : ¬ b.size ≤ 0 := by
      simp only [List.head?_cons, mem_some_iff] at hc
      rw [Nat.le_zero]
      intro hzero
      exact hne (hc ▸ length_eq_zero_iff.mp hzero)
    simp only [hb, ho, if_neg hpos]
    exact ⟨trivial, trivial, trivial, hrest⟩
  · have hb := (getElem?_of_drop_eq_cons hrest).1
    simp only [hc, if_pos (le_of_eq ho.symm), hb]
    exact ⟨trivial, trivial, trivial, hrest⟩

theorem rdPtr_of_next_cons (h : NextBlocks m (b :: rest)) (n : ℕ) (hn : n ≠ 0)
    (hlt : n < SIZE_T_MODULUS) (hsize : b.size = n) :
    (m.rdPtr n).1 = .ok b.bytes ∧ NextBlocks (m.rdPtr n).2 rest := by
  obtain ⟨hres, hbuf, ho, hdrop⟩ := peek_of_next_cons h n hn
  have hin : peekIn b 0 n = .ok b.bytes := by
    unfold peekIn
    rw [Nat.zero_add, Nat.mod_eq_of_lt hlt, if_neg (by omega), drop_zero, ← hsize,
      Block.size, take_length]
  rw [hin] at hres
  unfold rdPtr
  rcases hp : m.peek n with ⟨r, m'⟩
  rw [hp] at hres hbuf ho hdrop
  simp only at hres hbuf ho hdrop
  subst hres
  refine ⟨rfl, .inr ⟨b, ?_, ?_, ?_⟩⟩
  · simp only [hbuf]
    exact (getElem?_of_drop_eq_cons hdrop).1
  · simp only [ho, Nat.zero_add, Nat.mod_eq_of_lt hlt, hsize]
  · simp only [hbuf]
    exact (getElem?_of_drop_eq_cons hdrop).2

theorem run_peek {n : ℕ} :
    (Reader.peek n Reader.ret).run m = (m.peek n).1 := by
  unfold Reader.run
  rcases m.peek n with ⟨_ | _, _⟩ <;> rfl

theorem SameRuns.rdPtr (h : SameRuns d u) {n : ℕ} {bytes bytes' : List UInt8}
    (hd : (d.rdPtr n).1 = .ok bytes) (hu : (u.rdPtr n).1 = .ok bytes') :
    SameRuns (d.rdPtr n).2 (u.rdPtr n).2 := by
  intro α r
  have hr := h α (.rdPtr n fun _ => r)
  unfold Reader.run at hr
  rcases hdn : d.rdPtr n with ⟨_ | _, d'⟩ <;> rcases hun : u.rdPtr n with ⟨_ | _, u'⟩ <;>
    simp_all

/-- Readers that cannot tell two messages apart find the same blocks ahead. -/
theorem SameRuns.next_eq (us : List Block) {ds : List Block} (h : SameRuns d u)
    (hd : NextBlocks d ds) (hu : NextBlocks u us) (hne : ∀ b ∈ us, b.bytes ≠ [])
    (hds : ∀ b ∈ ds, b.size < 2 ^ 63) (hus : ∀ b ∈ us, b.size < 2 ^ 63) :
    ds.map bytes = us.map bytes := by
  induction us generalizing d u ds with
  | nil =>
    cases ds with
    | nil => rfl
    | cons c cs =>
      have hrun := h _ (.peek 1 .ret)
      rw [run_peek, run_peek, peek_of_next_nil hu 1 (by decide),
        (peek_of_next_cons hd 1 (by decide)).1] at hrun
      unfold peekIn at hrun
      split at hrun <;> simp at hrun
  | cons b us ih =>
    have hb : 0 < b.size := length_pos_iff_ne_nil.mpr (hne b mem_cons_self)
    have hlt : b.size < 2 ^ 63 := hus b mem_cons_self
    have hmod (k : ℕ) (hk : k ≤ 2 ^ 63) : (0 + k) % SIZE_T_MODULUS = k := by
      rw [Nat.zero_add, Nat.mod_eq_of_lt]
      unfold SIZE_T_MODULUS
      omega
    -- a read of the whole block and a read of one byte more
    have hall := h _ (.peek b.size .ret)
    have hmore := h _ (.peek (b.size + 1) .ret)
    rw [run_peek, run_peek, (peek_of_next_cons hu _ (by omega)).1] at hall hmore
    unfold peekIn at hall hmore
    rw [hmod _ (by omega), if_neg (by omega)] at hall
    rw [hmod _ (by omega), if_pos (by omega)] at hmore
    cases ds with
    | nil =>
      rw [peek_of_next_nil hd _ (by omega)] at hall
      simp at hall
    | cons c cs =>
      rw [(peek_of_next_cons hd _ (by omega)).1] at hall hmore
      unfold peekIn at hall hmore
      rw [hmod _ (by omega)] at hall hmore
      have hc : c.size = b.size := by
        by_contra hcb
        by_cases hle : c.size < b.size
        · rw [if_pos hle] at hall
          simp at hall
        · rw [if_neg (by omega)] at hmore
          simp at hmore
      have hbytes : c.bytes = b.bytes := by
        rw [if_neg (by omega), drop_zero, drop_zero, Except.ok.injEq] at hall
        have hcl : b.size = c.bytes.length := hc.symm
        rwa [hcl, take_length, ← hcl, Block.size, take_length] at hall
      have hsz : b.size < SIZE_T_MODULUS := by
        unfold SIZE_T_MODULUS
        omega
      obtain ⟨hdr, hdn⟩ := rdPtr_of_next_cons hd b.size (by omega) hsz hc
      obtain ⟨hur, hun⟩ := rdPtr_of_next_cons hu b.size (by omega) hsz rfl
      have hrest := ih (h.rdPtr hdr hur) hdn hun
        (fun x hx => hne x (mem_cons_of_mem _ hx))
        (fun x hx => hds x (mem_cons_of_mem _ hx))
        (fun x hx => hus x (mem_cons_of_mem _ hx))
      rw [map_cons, map_cons, hbytes, hrest]

/-- Of two messages with the cursor at the start, one with a readable header and
no empty block: they are read alike exactly when their blocks have the same
contents. -/
theorem sameReads_iff {ds us : List Block} (hne : ∀ b ∈ us, b.bytes ≠ [])
    (hhead : ∃ b ∈ us.head?, 6 ≤ b.size) (hds : ∀ b ∈ ds, b.size < 2 ^ 63)
    (hus : ∀ b ∈ us, b.size < 2 ^ 63) :
    SameReads { dataBuffer := ds } { dataBuffer := us } ↔
      ds.map bytes = us.map bytes := by
  constructor
  · rintro ⟨hflags, -, -, hruns⟩
    obtain ⟨b, hb, h6⟩ := hhead
    cases us with
    | nil => simp at hb
    | cons u us =>
      simp only [List.head?_cons, mem_some_iff] at hb
      subst hb
      have hb0 : u.bytes ≠ [] := hne u mem_cons_self
      have hu : NextBlocks { dataBuffer := u :: us } (u :: us) :=
        .inl ⟨rfl, rfl, u, by simp, hb0⟩
      -- an empty or missing first block has no flags to read
      have hd : NextBlocks { dataBuffer := ds } ds := by
        unfold getHeaderFlags load FLAGS_FIELD_OFFSET at hflags
        simp only [if_pos h6] at hflags
        cases ds with
        | nil => simp [Except.map] at hflags
        | cons d ds =>
          refine .inl ⟨rfl, rfl, d, by simp, ?_⟩
          intro hnil
          simp [Except.map, Block.size, hnil] at hflags
      exact hruns.next_eq (u :: us) hd hu hne hds hus
  · intro h
    exact SameContents.sameReads ⟨h, rfl, rfl⟩

end HazelcastClient.Protocol
