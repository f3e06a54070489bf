import HazelcastClient.Util.RandomAccess

/-!
# Parsers of byte strings

A parser reads a value from a byte string at a position and gives the position after it.
`Reads limit p bytes v` says that `p` gets `v` from the bytes `bytes` wherever they stand,
as long as the position stays within `limit`; `Misses limit p bytes v` says that it never
gets `v` from them.
-/

theorem Except.bind_eq_ok {E T U : Type} {x : Except E T} {f : T → Except E U} {u : U}
    (h : x >>= f = .ok u) : ∃ a, x = .ok a ∧ f a = .ok u := by
  cases x with
  | error e => cases h
  | ok a => exact ⟨a, rfl, h⟩

namespace ByteParser

open RandomAccess

/-- Reads a value at a position, and gives the position after it. -/
def Parser (E T : Type) := List UInt8 → ℕ → Except E (T × ℕ)

variable {E T U : Type} {limit : ℕ} {p : Parser E T} {bytes bytes' : List UInt8} {v : T}
  {f : T → Parser E U} {u : U}

namespace Parser

instance : Monad (Parser E) where
  pure v := fun _ pos => .ok (v, pos)
  bind p f := fun data pos => (p data pos).bind fun r => f r.1 data r.2

def fail (e : E) : Parser E T := fun _ _ => .error e

def times (p : Parser E T) : ℕ → Parser E (List T)
  | 0 => pure []
  | n + 1 => do
    let v ← p
    let vs ← times p n
    pure (v :: vs)

theorem pure_apply (v : T) (data : List UInt8) (pos : ℕ) :
    (pure v : Parser E T) data pos = .ok (v, pos) := rfl

variable {f : T → Parser E U} {data : List UInt8} {pos : ℕ}

theorem bind_of_ok {p : Parser E T} {next : ℕ} {v : T} (h : p data pos = .ok (v, next)) :
    (p >>= f) data pos = f v data next := by
  change (p data pos).bind (fun r => f r.1 data r.2) = _
  rw [h]
  rfl

theorem bind_of_error {p : Parser E T} {e : E} (h : p data pos = .error e) :
    (p >>= f) data pos = .error e := by
  change (p data pos).bind (fun r => f r.1 data r.2) = _
  rw [h]
  rfl

theorem bind_eq_ok {p : Parser E T} {last : ℕ} (h : (p >>= f) data pos = .ok (u, last)) :
    ∃ v next, p data pos = .ok (v, next) ∧ f v data next = .ok (u, last) := by
  cases hp : p data pos with
  | error e =>
    rw [bind_of_error hp] at h
    cases h
  | ok r =>
    obtain ⟨v, next⟩ := r
    rw [bind_of_ok hp] at h
    exact ⟨v, next, rfl, h⟩

end Parser

/-- The parser gets `v` from the bytes `bytes` and stops after them. -/
def Reads (limit : ℕ) (p : Parser E T) (bytes : List UInt8) (v : T) : Prop :=
  ∀ data pos, At data pos bytes → pos + bytes.length ≤ limit →
    p data pos = .ok (v, pos + bytes.length)

/-- The parser does not get `v` from the bytes `bytes`. -/
def Misses (limit : ℕ) (p : Parser E T) (bytes : List UInt8) (v : T) : Prop :=
  ∀ data pos next, At data pos bytes → pos + bytes.length ≤ limit → p data pos ≠ .ok (v, next)

theorem Reads.misses (h : Reads limit p bytes v) {w : T} (hne : v ≠ w) :
    Misses limit p bytes w := by
  intro data pos next hat hlimit heq
  rw [h data pos hat hlimit] at heq
  exact hne (congrArg Prod.fst (Except.ok.inj heq))

theorem Reads.pure (v : T) : Reads limit (pure v : Parser E T) [] v := by
  intro data pos hat hlimit
  rfl

theorem Reads.bind (hp : Reads limit p bytes v) (hf : Reads limit (f v) bytes' u) :
    Reads limit (p >>= f) (bytes ++ bytes') u := by
  intro data pos hat hlimit
  rw [List.length_append, ← Nat.add_assoc] at *
  rw [Parser.bind_of_ok (hp data pos hat.left (by omega)), hf data _ hat.right hlimit]

theorem Reads.bind_pure (hp : Reads limit p bytes v) (g : T → U) (hg : g v = u) :
    Reads limit (p >>= fun w => (Pure.pure (g w) : Parser E U)) bytes u := by
  subst hg
  have h := hp.bind (f := fun w => (Pure.pure (g w) : Parser E U)) (Reads.pure (g v))
  rwa [List.append_nil] at h

theorem Reads.times {enc : T → List UInt8} {vs : List T}
    (h : ∀ v ∈ vs, Reads limit p (enc v) v) :
    Reads limit (p.times vs.length) (vs.flatMap enc) vs := by
  induction vs with
  | nil => exact Reads.pure []
  | cons v vs ih =>
    have hrest := ih fun w hw => h w (List.mem_cons_of_mem _ hw)
    exact (h v List.mem_cons_self).bind (hrest.bind_pure (fun ws => v :: ws) rfl)

end ByteParser
