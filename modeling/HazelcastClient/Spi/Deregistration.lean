import HazelcastClient.Spi.ListenerService

/-!
# What is left of a registration

`deregister_listener_internal` sends a request to every connection of a registration. Its
executor has one thread, so nothing else changes the registration meanwhile. A connection
whose request succeeded is erased from the copy that the loop goes through, and stays in the
map of the registration.
-/

namespace HazelcastClient.Spi.ListenerService

/-- The request succeeds, or fails on a connection that is alive or not. -/
inductive Removal where
  | removed
  | failed (alive : Bool)
  deriving DecidableEq

/-- The loop over the copy: the flag, and the connections that are left in the copy. -/
def removeFrom (outcome : ℕ → Removal) : List ℕ → Bool → Bool × List ℕ
  | [], successful => (successful, [])
  | connection :: rest, successful =>
    match outcome connection with
    | .removed => removeFrom outcome rest successful
    | .failed alive =>
      let (successful, left) := removeFrom outcome rest (successful && !alive)
      (successful, connection :: left)

/-- What a call leaves in the map, its result, and the requests it sends. -/
structure Deregistered where
  registrations : Registrations
  successful : Bool
  requests : List (ℕ × ConnectionRegistration)

def deregisterListenerInternal (m : Registrations) (id : ℕ) (outcome : ℕ → Removal) :
    Deregistered :=
  match m.lookup id with
  | none => ⟨m, false, []⟩
  | some entries =>
    let successful := (removeFrom outcome entries.keys true).1
    ⟨if successful then m.erase id else m, successful, copy entries entries.keys⟩

/-- The flag is cleared by a request that fails on a connection that is alive, and by no other. -/
theorem removeFrom_fst_eq_false_iff {outcome : ℕ → Removal} {connections : List ℕ}
    {successful : Bool} : (removeFrom outcome connections successful).1 = false ↔
      successful = false ∨ ∃ connection ∈ connections, outcome connection = .failed true := by
  induction connections generalizing successful with
  | nil => simp [removeFrom]
  | cons connection rest ih =>
    cases h : outcome connection with
    | removed =>
      rw [removeFrom, h]
      simp [ih, h]
    | failed alive =>
      rw [removeFrom, h]
      cases alive <;> simp [ih, h]

theorem successful_eq_false_iff {m : Registrations} {id : ℕ} {outcome : ℕ → Removal}
    {entries : Entries} (hentries : m.lookup id = some entries) :
    (deregisterListenerInternal m id outcome).successful = false ↔
      ∃ connection ∈ entries, outcome connection = .failed true := by
  simp only [deregisterListenerInternal, hentries, removeFrom_fst_eq_false_iff]
  simp [AList.mem_keys]

/-- When a call returns false, exactly the connections whose removal failed are kept, and the
next call sends requests to no others. -/
def RemembersRemovals (m : Registrations) (id : ℕ) (outcome : ℕ → Removal) : Prop :=
  ∀ entries, m.lookup id = some entries →
    (deregisterListenerInternal m id outcome).successful = false →
      (∃ kept, (deregisterListenerInternal m id outcome).registrations.lookup id = some kept ∧
        ∀ connection, connection ∈ kept ↔ connection ∈ entries ∧ outcome connection ≠ .removed) ∧
      ∀ outcome', ∀ request ∈ (deregisterListenerInternal
          (deregisterListenerInternal m id outcome).registrations id outcome').requests,
        outcome request.1 ≠ .removed

theorem registrations_of_failed {m : Registrations} {id : ℕ} {outcome : ℕ → Removal}
    (h : (deregisterListenerInternal m id outcome).successful = false) :
    (deregisterListenerInternal m id outcome).registrations = m := by
  unfold deregisterListenerInternal at h ⊢
  split
  · rfl
  · rename_i entries hentries
    simp only [hentries] at h
    simp [h]

theorem mem_of_request {m : Registrations} {id : ℕ} {outcome : ℕ → Removal} {entries : Entries}
    (hentries : m.lookup id = some entries) {request : ℕ × ConnectionRegistration}
    (h : request ∈ (deregisterListenerInternal m id outcome).requests) : request.1 ∈ entries := by
  simp only [deregisterListenerInternal, hentries, copy] at h
  obtain ⟨connection, hmem, hsome⟩ := List.mem_filterMap.mp h
  obtain ⟨entry, -, rfl⟩ := Option.map_eq_some_iff.mp hsome
  exact AList.mem_keys.mp hmem

/-- The removals are remembered exactly when no request succeeds as soon as one fails on a
connection that is alive. -/
theorem remembersRemovals_iff (m : Registrations) (id : ℕ) (outcome : ℕ → Removal) :
    RemembersRemovals m id outcome ↔
      ∀ entries, m.lookup id = some entries →
        (∃ connection ∈ entries, outcome connection = .failed true) →
          ∀ connection ∈ entries, outcome connection ≠ .removed := by
  constructor
  · intro h entries hentries hfailed connection hmem
    have hfalse := (successful_eq_false_iff hentries).mpr hfailed
    obtain ⟨⟨kept, hkept, hiff⟩, -⟩ := h entries hentries hfalse
    rw [registrations_of_failed hfalse, hentries] at hkept
    cases hkept
    exact ((hiff connection).mp hmem).2
  · intro h entries hentries hfalse
    have hnone := h entries hentries ((successful_eq_false_iff hentries).mp hfalse)
    rw [registrations_of_failed hfalse]
    refine ⟨⟨entries, hentries, fun connection => ?_⟩, fun outcome' request hrequest => ?_⟩
    · exact (and_iff_left_of_imp (hnone connection)).symm
    · exact hnone _ (mem_of_request hentries hrequest)

/-- The request to the connection 1 succeeds, the one to the connection 2 fails: both are
kept, and both are sent again. -/
theorem removal_forgotten :
    let m : Registrations := AList.singleton 7
      (AList.insert 1 ⟨10, 100⟩ (AList.singleton 2 ⟨20, 200⟩))
    let outcome : ℕ → Removal := fun connection => if connection = 1 then .removed else .failed true
    let call := deregisterListenerInternal m 7 outcome
    call.successful = false ∧ call.registrations.containsKey 7 1 = true ∧
      (deregisterListenerInternal call.registrations 7 outcome).requests =
        [(1, ⟨10, 100⟩), (2, ⟨20, 200⟩)] := by
  decide

end HazelcastClient.Spi.ListenerService
