import HazelcastClient.Serialization.Compact.Body
import HazelcastClient.Serialization.Compact.Record

/-!
# Fields of compact records

What a field puts into the body of its record. A field of variable size puts the bytes of
its value there, if it has one, and they decide whether the value comes back.
-/

namespace HazelcastClient.Serialization.Compact

open RandomAccess

inductive Payload {T : Type} (write : T → Output → Result Output)
    (read : List UInt8 → ℕ → Result (Option T)) (size : T → ℕ) (survives : T → Prop) :
    Option T → Option (List UInt8) → Prop
  | absent : Payload write read size survives none none
  | present {v : T} {bytes : List UInt8} (hsize : bytes.length = size v)
      (hwrite : Appends (write v) bytes) (hread : survives v → Gets read bytes (some v))
      (hlost : ¬ survives v → Never read bytes (some v)) :
      Payload write read size survives (some v) (some bytes)

section Payload

variable {T : Type} {write : T → Output → Result Output}
  {read : List UInt8 → ℕ → Result (Option T)} {size : T → ℕ} {survives : T → Prop}
  {value : Option T} {payload : Option (List UInt8)}

theorem Payload.length (h : Payload write read size survives value payload) :
    (payload.getD []).length = value.elim 0 size := by
  cases h with
  | absent => rfl
  | present hsize hwrite hread hlost => exact hsize

end Payload

namespace Entry

variable {R : Type} {order : ByteOrder} {c : Codec R} {σ : R → ℕ} {S : R → Prop}
  {d : FieldDescriptor} {e : Entry R} {piece : Piece}

def size (σ : R → ℕ) : Entry R → ℕ
  | ⟨_, .arrayOf p, value⟩ => Option.elim value 0 (vectorSize p)
  | ⟨_, .nullable i, value⟩ => Option.elim value 0 (i.size σ)
  | ⟨_, .arrayOfNullable i, value⟩ => Option.elim value 0 (arraySize (i.size σ))
  | ⟨_, .primitive _, _⟩ => 0

def Survives (S : R → Prop) : Entry R → Prop
  | ⟨_, .arrayOf p, value⟩ => ∀ vs, value = some vs → VectorSurvives p vs
  | ⟨_, .nullable i, value⟩ => ∀ v, value = some v → i.Survives S v
  | ⟨_, .arrayOfNullable i, value⟩ => ∀ vs, value = some vs → ∀ v, some v ∈ vs → i.Survives S v
  | ⟨_, .primitive _, _⟩ => True

/-- What the value of a field with the descriptor `d` puts into the record. -/
inductive Puts (order : ByteOrder) (c : Codec R) (σ : R → ℕ) (S : R → Prop) (d : FieldDescriptor) :
    Entry R → Piece → Prop
  | boolean {name : Name} {value : Bool} {offset bit : ℕ} (hoffset : d.offset = offset)
      (hbit : d.bitOffset.toInt = bit) :
      Puts order c σ S d ⟨name, .primitive .boolean, value⟩ (.bit offset bit value)
  | number {name : Name} {n : Numeric} {value : BitVec (8 * n.size)} {offset : ℕ}
      (hoffset : d.offset = offset) :
      Puts order c σ S d ⟨name, .primitive (.numeric n), value⟩
        (.range offset (primitiveBytes order (.numeric n) value))
  | vector {name : Name} {p : Primitive} {value : Option (List p.Val)} {index : ℕ}
      {payload : Option (List UInt8)} (hindex : d.index = index)
      (h : Payload (writeVector order p) (Reader.vector order p) (vectorSize p) (VectorSurvives p)
        value payload) :
      Puts order c σ S d ⟨name, .arrayOf p, value⟩ (.entry index payload)
  | item {name : Name} {i : Item} {value : Option (i.Val R)} {index : ℕ}
      {payload : Option (List UInt8)} (hindex : d.index = index)
      (h : Payload (writeItem order c i) (Reader.present (readItem order c i)) (i.size σ)
        (i.Survives S) value payload) :
      Puts order c σ S d ⟨name, .nullable i, value⟩ (.entry index payload)
  | items {name : Name} {i : Item} {value : Option (List (Option (i.Val R)))} {index : ℕ}
      {payload : Option (List UInt8)} (hindex : d.index = index)
      (h : Payload (writeArray order (writeItem order c i)) (Reader.items order (readItem order c i))
        (arraySize (i.size σ)) (fun vs => ∀ v, some v ∈ vs → i.Survives S v) value payload) :
      Puts order c σ S d ⟨name, .arrayOfNullable i, value⟩ (.entry index payload)

theorem Puts.length (h : e.Puts order c σ S d piece) : piece.appended.length = e.size σ := by
  cases h with
  | boolean hoffset hbit | number hoffset => rfl
  | vector hindex h | item hindex h | items hindex h => exact h.length

end Entry

end HazelcastClient.Serialization.Compact
