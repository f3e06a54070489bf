import Mathlib.Data.List.AList

/-!
# Destroying distributed objects

`ProxyManager` registers one proxy for each service and name. A proxy that has been
destroyed is stale: its users can still hold it and destroy it once more, and by then
another proxy may be registered under the name.

`destroy_proxy` unregisters whatever there is and destroys the proxy it is given. The
proxy it has unregistered is looked at only to tell whether there was one.
-/

namespace HazelcastClient.Spi

open List AList

/-- `DefaultObjectNamespace`. -/
structure ObjectNamespace where
  serviceName : String
  objectName : String
  deriving DecidableEq

structure ClientProxy where
  address : ℕ
  objectNamespace : ObjectNamespace
  deriving DecidableEq

/-- What destroying a proxy does to it. `destroyRemotely` sends a request to destroy the
object of its name. -/
inductive ProxyAction where
  | onDestroy (proxy : ClientProxy)
  | postDestroy (proxy : ClientProxy)
  | destroyRemotely (proxy : ClientProxy)
  deriving DecidableEq

/-- Which of the virtual functions throw an `iexception`. -/
structure ProxyHooks where
  onDestroyThrows : Bool := false
  postDestroyThrows : Bool := false

/-- What a function has done, and whether it threw. -/
structure ProxyOutcome where
  actions : List ProxyAction
  threw : Bool

/-- `post_destroy` is called once more when one of the two throws. -/
def ClientProxy.destroyLocally (proxy : ClientProxy) (hooks : ProxyHooks) : ProxyOutcome :=
  if hooks.onDestroyThrows then ⟨[.onDestroy proxy, .postDestroy proxy], true⟩
  else if hooks.postDestroyThrows then
    ⟨[.onDestroy proxy, .postDestroy proxy, .postDestroy proxy], true⟩
  else ⟨[.onDestroy proxy, .postDestroy proxy], false⟩

structure ProxyManager where
  proxies : AList (fun _ : ObjectNamespace => ClientProxy) := ∅
  allocated : ℕ := 0

namespace ProxyManager

def registered (m : ProxyManager) (ns : ObjectNamespace) : Option ClientProxy :=
  m.proxies.lookup ns

/-- The proxy and the manager afterwards; a new proxy is created on the cluster without
an error. -/
def getOrCreateProxy (m : ProxyManager) (ns : ObjectNamespace) : ClientProxy × ProxyManager :=
  match m.registered ns with
  | some proxy => (proxy, m)
  | none =>
    let proxy : ClientProxy := ⟨m.allocated, ns⟩
    (proxy, ⟨m.proxies.insert ns proxy, m.allocated + 1⟩)

def unregister (m : ProxyManager) (ns : ObjectNamespace) : ProxyManager :=
  { m with proxies := m.proxies.erase ns }

/-- `hooks` are those of the call of `destroy_locally` in the outer `try`, `again` those of
the call in its handler. The remote calls succeed. -/
def destroyProxy (m : ProxyManager) (proxy : ClientProxy) (hooks again : ProxyHooks) :
    ProxyManager × ProxyOutcome :=
  let registeredProxy := m.registered proxy.objectNamespace
  let m' := m.unregister proxy.objectNamespace
  let locally := proxy.destroyLocally hooks
  -- the inner `try` and its handler both send the request
  let tried :=
    if registeredProxy.isSome then locally.actions ++ [.destroyRemotely proxy]
    else locally.actions
  if locally.threw && registeredProxy != some proxy then
    (m', ⟨tried ++ (proxy.destroyLocally again).actions, true⟩)
  else (m', ⟨tried, locally.threw⟩)

end ProxyManager

/-- `destroy_locally` was called on the proxy. -/
def DestroyedLocally (proxy : ClientProxy) (actions : List ProxyAction) : Prop :=
  .onDestroy proxy ∈ actions ∧ .postDestroy proxy ∈ actions

section

variable {proxy : ClientProxy} {actions : List ProxyAction} (h : DestroyedLocally proxy actions)

include h

theorem DestroyedLocally.append_right (more : List ProxyAction) :
    DestroyedLocally proxy (actions ++ more) :=
  ⟨mem_append_left _ h.1, mem_append_left _ h.2⟩

theorem DestroyedLocally.append_left (earlier : List ProxyAction) :
    DestroyedLocally proxy (earlier ++ actions) :=
  ⟨mem_append_right _ h.1, mem_append_right _ h.2⟩

end

def ProxyAction.isRemote : ProxyAction → Bool
  | .destroyRemotely _ => true
  | _ => false

theorem mem_destroyLocally {proxy : ClientProxy} {hooks : ProxyHooks} {action : ProxyAction}
    (h : action ∈ (proxy.destroyLocally hooks).actions) :
    action = .onDestroy proxy ∨ action = .postDestroy proxy := by
  unfold ClientProxy.destroyLocally at h
  split at h
  · simpa using h
  · split at h
    · simpa using h
    · simpa using h

theorem destroyedLocally_self (proxy : ClientProxy) (hooks : ProxyHooks) :
    DestroyedLocally proxy (proxy.destroyLocally hooks).actions := by
  unfold ClientProxy.destroyLocally DestroyedLocally
  split
  · simp
  · split
    · simp
    · simp

theorem filter_isRemote_destroyLocally (proxy : ClientProxy) (hooks : ProxyHooks) :
    (proxy.destroyLocally hooks).actions.filter ProxyAction.isRemote = [] := by
  rw [filter_eq_nil_iff]
  intro action haction
  rcases mem_destroyLocally haction with rfl | rfl
  · simp [ProxyAction.isRemote]
  · simp [ProxyAction.isRemote]

namespace ProxyManager

/-- What destroying a proxy is for: nothing is registered afterwards, the proxy that was
has been destroyed, with one request to the cluster, and a stale proxy only locally. -/
structure Released (m : ProxyManager) (proxy : ClientProxy) (m' : ProxyManager)
    (actions : List ProxyAction) : Prop where
  unregistered : m'.registered proxy.objectNamespace = none
  counterpart : ∀ r, m.registered proxy.objectNamespace = some r →
    DestroyedLocally r actions ∧ (actions.filter ProxyAction.isRemote).length = 1
  stale : m.registered proxy.objectNamespace ≠ some proxy →
    DestroyedLocally proxy actions ∧ .destroyRemotely proxy ∉ actions

/-- No other proxy is registered for the service and name of this one. -/
def Unrivalled (m : ProxyManager) (proxy : ClientProxy) : Prop :=
  ∀ r, m.registered proxy.objectNamespace = some r → r = proxy

section Destroy

variable {m : ProxyManager} {proxy : ClientProxy} {hooks again : ProxyHooks}

theorem destroyProxy_manager :
    (m.destroyProxy proxy hooks again).1 = m.unregister proxy.objectNamespace := by
  unfold destroyProxy
  simp only
  split
  · rfl
  · rfl

theorem mem_destroyProxy {action : ProxyAction}
    (h : action ∈ (m.destroyProxy proxy hooks again).2.actions) :
    action = .onDestroy proxy ∨ action = .postDestroy proxy ∨
      action = .destroyRemotely proxy := by
  have hlocal : ∀ hooks, action ∈ (proxy.destroyLocally hooks).actions →
      action = .onDestroy proxy ∨ action = .postDestroy proxy ∨
        action = .destroyRemotely proxy := fun hooks h =>
    (mem_destroyLocally h).imp_right .inl
  have htried : action ∈ (if (m.registered proxy.objectNamespace).isSome then
        (proxy.destroyLocally hooks).actions ++ [.destroyRemotely proxy]
      else (proxy.destroyLocally hooks).actions) →
      action = .onDestroy proxy ∨ action = .postDestroy proxy ∨
        action = .destroyRemotely proxy := by
    intro h
    split at h
    · rcases mem_append.mp h with h | h
      · exact hlocal hooks h
      · exact .inr (.inr (mem_singleton.mp h))
    · exact hlocal hooks h
  unfold destroyProxy at h
  simp only at h
  split at h
  · rcases mem_append.mp h with h | h
    · exact htried h
    · exact hlocal again h
  · exact htried h

theorem destroyedLocally_destroyProxy :
    DestroyedLocally proxy (m.destroyProxy proxy hooks again).2.actions := by
  have htried : DestroyedLocally proxy (if (m.registered proxy.objectNamespace).isSome then
        (proxy.destroyLocally hooks).actions ++ [.destroyRemotely proxy]
      else (proxy.destroyLocally hooks).actions) := by
    split
    · exact (destroyedLocally_self proxy hooks).append_right _
    · exact destroyedLocally_self proxy hooks
  unfold destroyProxy
  simp only
  split
  · exact htried.append_right _
  · exact htried

theorem registered_unregister (m : ProxyManager) (ns : ObjectNamespace) :
    (m.unregister ns).registered ns = none :=
  lookup_erase ns m.proxies

theorem registered_unregister_of_ne (m : ProxyManager) {ns other : ObjectNamespace}
    (hne : other ≠ ns) : (m.unregister ns).registered other = m.registered other :=
  lookup_erase_ne hne

/-- Without a rival, exactly the requests that are due are sent. -/
theorem filter_isRemote_destroyProxy (h : Unrivalled m proxy) :
    (m.destroyProxy proxy hooks again).2.actions.filter ProxyAction.isRemote =
      if (m.registered proxy.objectNamespace).isSome then [.destroyRemotely proxy] else [] := by
  unfold destroyProxy
  cases hregistered : m.registered proxy.objectNamespace with
  | none =>
    simp only [Option.isSome_none, Bool.false_eq_true, ↓reduceIte]
    split
    · simp [filter_isRemote_destroyLocally]
    · simp [filter_isRemote_destroyLocally]
  | some r =>
    obtain rfl := h r hregistered
    simp [filter_isRemote_destroyLocally, ProxyAction.isRemote]

/-- A proxy is released unless another one is registered in its place, which is then
unregistered and never destroyed. -/
theorem released_iff :
    Released m proxy (m.destroyProxy proxy hooks again).1
      (m.destroyProxy proxy hooks again).2.actions ↔ Unrivalled m proxy := by
  constructor
  · intro h r hr
    rcases mem_destroyProxy (h.counterpart r hr).1.1 with heq | heq | heq
    · exact ProxyAction.onDestroy.inj heq
    · cases heq
    · cases heq
  · intro h
    constructor
    · rw [destroyProxy_manager]
      exact registered_unregister m _
    · intro r hr
      obtain rfl := h r hr
      refine ⟨destroyedLocally_destroyProxy, ?_⟩
      rw [filter_isRemote_destroyProxy h, hr]
      rfl
    · intro hstale
      refine ⟨destroyedLocally_destroyProxy, ?_⟩
      intro hremote
      have hmem := mem_filter.mpr ⟨hremote, (rfl : ProxyAction.isRemote _ = true)⟩
      rw [filter_isRemote_destroyProxy h] at hmem
      split at hmem
      · rename_i hsome
        obtain ⟨r, hr⟩ := Option.isSome_iff_exists.mp hsome
        exact hstale (by rw [hr, h r hr])
      · simp at hmem

end Destroy

/-! ## Sequences of calls -/

/-- The manager, the proxies that have been obtained and what has been done, after a
sequence of calls. Any proxy obtained so far can be destroyed, if that meets `ok`. -/
inductive Calls (ok : ProxyManager → ClientProxy → Prop) :
    ProxyManager → List ClientProxy → List ProxyAction → Prop
  | start : Calls ok {} [] []
  | getOrCreate {m : ProxyManager} {obtained : List ClientProxy} {actions : List ProxyAction}
      (h : Calls ok m obtained actions) (ns : ObjectNamespace) :
      Calls ok (m.getOrCreateProxy ns).2 ((m.getOrCreateProxy ns).1 :: obtained) actions
  | destroy {m : ProxyManager} {obtained : List ClientProxy} {actions : List ProxyAction}
      (h : Calls ok m obtained actions) {proxy : ClientProxy} (hobtained : proxy ∈ obtained)
      (hok : ok m proxy) (hooks again : ProxyHooks) :
      Calls ok (m.destroyProxy proxy hooks again).1 obtained
        (actions ++ (m.destroyProxy proxy hooks again).2.actions)

section Calls

variable {ok : ProxyManager → ClientProxy → Prop} {m : ProxyManager}
  {obtained : List ClientProxy} {actions : List ProxyAction}

/-- A proxy is registered under its own service and name. -/
theorem Calls.objectNamespace_eq (h : Calls ok m obtained actions) {ns : ObjectNamespace}
    {r : ClientProxy} (hr : m.registered ns = some r) : r.objectNamespace = ns := by
  induction h generalizing ns r with
  | start => cases hr
  | @getOrCreate m obtained actions h ns' ih =>
    unfold getOrCreateProxy at hr
    cases hfound : m.registered ns' with
    | some proxy =>
      rw [hfound] at hr
      exact ih hr
    | none =>
      rw [hfound] at hr
      by_cases hns : ns = ns'
      · subst hns
        rw [registered, lookup_insert, Option.some.injEq] at hr
        subst hr
        rfl
      · rw [registered, lookup_insert_ne hns] at hr
        exact ih hr
  | @destroy m obtained actions h proxy hobtained hok hooks again ih =>
    rw [destroyProxy_manager] at hr
    by_cases hns : ns = proxy.objectNamespace
    · subst hns
      rw [registered_unregister] at hr
      cases hr
    · rw [registered_unregister_of_ne m hns] at hr
      exact ih hr

/-- If no destroyed proxy has a rival, every proxy is registered or has been destroyed. -/
theorem Calls.registered_or_destroyed (h : Calls ok m obtained actions)
    (hok : ∀ m proxy, ok m proxy → Unrivalled m proxy) {q : ClientProxy} (hq : q ∈ obtained) :
    m.registered q.objectNamespace = some q ∨ DestroyedLocally q actions := by
  induction h with
  | start => cases hq
  | @getOrCreate m obtained actions h ns ih =>
    unfold getOrCreateProxy at hq ⊢
    cases hfound : m.registered ns with
    | some proxy =>
      rw [hfound] at hq
      rcases mem_cons.mp hq with rfl | hq
      · have hns := h.objectNamespace_eq hfound
        exact .inl (hns ▸ hfound)
      · exact ih hq
    | none =>
      rw [hfound] at hq
      rcases mem_cons.mp hq with rfl | hq
      · exact .inl (lookup_insert m.proxies)
      · refine (ih hq).imp_left fun hregistered => ?_
        have hns : q.objectNamespace ≠ ns := by
          rintro rfl
          rw [hfound] at hregistered
          cases hregistered
        rw [registered, lookup_insert_ne hns]
        exact hregistered
  | @destroy m obtained actions h proxy hobtained hallowed hooks again ih =>
    rcases ih hq with hregistered | hdestroyed
    · rw [destroyProxy_manager]
      by_cases hns : q.objectNamespace = proxy.objectNamespace
      · -- what the proxy displaces is the proxy itself
        obtain rfl := hok m proxy hallowed q (hns ▸ hregistered)
        exact .inr (destroyedLocally_destroyProxy.append_left _)
      · exact .inl (by rw [registered_unregister_of_ne m hns, hregistered])
    · exact .inr (hdestroyed.append_right _)

/-- Destroying a proxy releases what is registered exactly when that is the proxy itself or
nothing; and as long as all calls are like that, no proxy goes without being destroyed. -/
theorem destroyProxy_releases (hcalls : Calls ok m obtained actions) :
    (∀ proxy ∈ obtained, ∀ hooks again,
      Released m proxy (m.destroyProxy proxy hooks again).1
        (m.destroyProxy proxy hooks again).2.actions ↔ Unrivalled m proxy) ∧
    ((∀ m proxy, ok m proxy → Unrivalled m proxy) →
      ∀ proxy ∈ obtained, m.registered proxy.objectNamespace = some proxy ∨
        DestroyedLocally proxy actions) :=
  ⟨fun _ _ _ _ => released_iff, fun hok _ hproxy => hcalls.registered_or_destroyed hok hproxy⟩

end Calls

/-- The map `m` of the service `s`. -/
def exampleNamespace : ObjectNamespace := ⟨"s", "m"⟩

/-- A map is created, destroyed and created again. -/
theorem destroyProxy_releases_again :
    ∃ m obtained actions, Calls Unrivalled m obtained actions ∧
      obtained = [⟨1, exampleNamespace⟩, ⟨0, exampleNamespace⟩] ∧
      ∀ proxy ∈ obtained, m.registered proxy.objectNamespace = some proxy ∨
        DestroyedLocally proxy actions := by
  have hstart : Calls Unrivalled {} [] [] := .start
  have hfirst := hstart.getOrCreate exampleNamespace
  have hobtained := mem_cons_self (a := (⟨0, exampleNamespace⟩ : ClientProxy)) (l := [])
  have hdestroyed := hfirst.destroy hobtained (by rintro r hr; cases hr; rfl) {} {}
  have hagain := hdestroyed.getOrCreate exampleNamespace
  exact ⟨_, _, _, hagain, rfl, (destroyProxy_releases hagain).2 fun _ _ h => h⟩

/-- The stale proxy is destroyed once more. The proxy that has taken its place is
unregistered, its object is destroyed on the cluster, and it is not destroyed locally. -/
theorem stale_destroy_drops_registered :
    ∃ m obtained actions, Calls (fun _ _ => True) m obtained actions ∧
      m.registered exampleNamespace = some ⟨1, exampleNamespace⟩ ∧
      ⟨0, exampleNamespace⟩ ∈ obtained ∧
      ∃ m' outcome, m.destroyProxy ⟨0, exampleNamespace⟩ {} {} = (m', outcome) ∧
        m'.registered exampleNamespace = none ∧
        outcome.actions = [.onDestroy ⟨0, exampleNamespace⟩, .postDestroy ⟨0, exampleNamespace⟩,
          .destroyRemotely ⟨0, exampleNamespace⟩] ∧
        ¬ DestroyedLocally ⟨1, exampleNamespace⟩ (actions ++ outcome.actions) := by
  have hstart : Calls (fun _ _ => True) {} [] [] := .start
  have hfirst := hstart.getOrCreate exampleNamespace
  have hobtained := mem_cons_self (a := (⟨0, exampleNamespace⟩ : ClientProxy)) (l := [])
  have hdestroyed := hfirst.destroy hobtained trivial {} {}
  have hagain := hdestroyed.getOrCreate exampleNamespace
  refine ⟨_, _, _, hagain, rfl, ?_, _, _, rfl, rfl, rfl, ?_⟩
  · exact mem_cons_of_mem _ mem_cons_self
  · rintro ⟨hmem, -⟩
    exact absurd hmem (by decide)

end ProxyManager

end HazelcastClient.Spi
