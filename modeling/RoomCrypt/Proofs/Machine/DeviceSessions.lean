import RoomCrypt.Machine.Sessions
import RoomCrypt.Proofs.Machine.Calls
import RoomCrypt.Proofs.Store.DeviceSessions

/-!
# The cached sessions of a machine

The sessions with a device are cached in a list, and the channel of each of them is shared at a slot of its
own. So a session that is used is changed at its place and nowhere else, and what is seen at a place is the
session with its channel as it is now, whatever slots there are.
-/

namespace RoomCrypt

open Olm (Session Channel)
open Store

namespace Pool

variable {α : Type} [Inhabited α]

/-- Values that are held already stay when more are held. -/
theorem get_append_of_holds {pool : Pool α} {slot : Slot α} (h : pool.Holds slot) (more : List α) :
    (⟨pool.items ++ more⟩ : Pool α).get slot = pool.get slot := by
  unfold Holds at h
  simp [get, List.getD, List.getElem?_append_left h]

/-- Values that are held together are found at the next slots. -/
theorem get_append_of_getElem? (pool : Pool α) {more : List α} {place : ℕ} {value : α}
    (h : more[place]? = some value) :
    (⟨pool.items ++ more⟩ : Pool α).get ⟨pool.items.length + place⟩ = value ∧
      (⟨pool.items ++ more⟩ : Pool α).Holds ⟨pool.items.length + place⟩ := by
  have hlt := (List.getElem?_eq_some_iff.mp h).1
  constructor
  · simp [get, List.getD, List.getElem?_append_right, h]
  · simp only [Holds, List.length_append]
    omega

end Pool

/-- Channels are shared at the next slots, one after the other. -/
theorem Machine.share_eq (channels : Pool Channel) (sessions : List (Session Channel)) :
    share channels sessions =
      ((sessions.zipIdx channels.items.length).map fun (session, place) => session.withState ⟨place⟩,
        ⟨channels.items ++ sessions.map (·.state)⟩) := by
  induction sessions generalizing channels with
  | nil => simp [share]
  | cons session sessions ih =>
    simp only [share, Pool.hold, ih]
    simp

variable [Suite]

namespace MachineState

/-- The cached session of a sender at a place of his list. -/
def cachedAt? (state : MachineState) (sender : String) (place : ℕ) : Option (Session (Slot Channel)) :=
  (state.machine.sessions.find? sender).bind (·[place]?)

/-- The cached session of a sender at a place, with its channel as it is now. -/
def viewAt? (state : MachineState) (sender : String) (place : ℕ) : Option (Session Channel) :=
  (state.cachedAt? sender place).map state.view

/-- All cached sessions have a property. Each has a slot of its own, stands in the list of its sender, is
called after its channel, and is the only one there with its identifier. -/
structure Caches (state : MachineState) (P : Session Channel → Prop) : Prop where
  held : ∀ sender place, ∀ session ∈ state.cachedAt? sender place, state.channels.Holds session.state
  slots : ∀ sender place sender' place', ∀ session ∈ state.cachedAt? sender place,
    ∀ session' ∈ state.cachedAt? sender' place', session.state = session'.state → sender = sender' ∧ place = place'
  kept : ∀ sender place, ∀ session ∈ state.viewAt? sender place,
    session.Named ∧ session.name.sender = sender ∧ P session
  ids : ∀ sender place place', ∀ session ∈ state.viewAt? sender place,
    ∀ session' ∈ state.viewAt? sender place', session.sessionId = session'.sessionId → place = place'

variable {state : MachineState} {P Q : Session Channel → Prop}

omit [Suite] in
theorem viewAt?_of_cachedAt? {sender : String} {place : ℕ} {session : Session (Slot Channel)}
    (h : state.cachedAt? sender place = some session) : state.viewAt? sender place = some (state.view session) :=
  congrArg (Option.map state.view) h

/-- A property may be weakened. -/
theorem Caches.imp (h : state.Caches P) (hweaker : ∀ session, P session → Q session) : state.Caches Q where
  held := h.held
  slots := h.slots
  kept sender place session hsession :=
    ⟨(h.kept sender place session hsession).1, (h.kept sender place session hsession).2.1,
      hweaker session (h.kept sender place session hsession).2.2⟩
  ids := h.ids

/-- A machine that has just been made has no sessions. -/
theorem caches_ofUser (user : UserId) : Caches { state with machine := .ofUser user } P where
  held sender place session hsession := by cases hsession
  slots sender place sender' place' session hsession := by cases hsession
  kept sender place session hsession := by cases hsession
  ids sender place place' session hsession := by cases hsession

theorem caches_boot (user : UserId) (store : MemoryStore) : (boot user store).Caches P := by
  change Caches { boot user store with machine := .ofUser user } P
  exact caches_ofUser user

/-- The state with the sessions of a sender as they were loaded. -/
def withLoaded (state : MachineState) (sender : String) (loaded : List (Session Channel)) : MachineState :=
  let (sessions, channels) := Machine.share state.channels loaded
  { state with
    channels
    machine := { state.machine with sessions := state.machine.sessions.setSender sender sessions } }

omit [Suite] in
theorem cachedAt?_withLoaded (state : MachineState) (sender : String) (loaded : List (Session Channel))
    (other : String) (place : ℕ) :
    (state.withLoaded sender loaded).cachedAt? other place =
      if other = sender then loaded[place]?.map (·.withState ⟨state.channels.items.length + place⟩)
      else state.cachedAt? other place := by
  unfold withLoaded cachedAt? SessionCache.find? SessionCache.setSender
  rw [Machine.share_eq]
  simp only [Dict.find?_insert]
  by_cases hsender : other = sender
  · simp only [hsender, if_true, Option.bind_some, List.getElem?_map, List.getElem?_zipIdx, Option.map_map]
    rfl
  · simp only [hsender, if_false]

/-- What is seen of the sessions of a sender after they were loaded is what was loaded. -/
theorem Caches.viewAt?_withLoaded (h : state.Caches P) (sender : String) (loaded : List (Session Channel))
    (other : String) (place : ℕ) :
    (state.withLoaded sender loaded).viewAt? other place =
      if other = sender then loaded[place]? else state.viewAt? other place := by
  have hchannels : (state.withLoaded sender loaded).channels = ⟨state.channels.items ++ loaded.map (·.state)⟩ := by
    unfold withLoaded
    rw [Machine.share_eq]
  unfold viewAt?
  rw [cachedAt?_withLoaded]
  by_cases hsender : other = sender
  · rw [if_pos hsender, if_pos hsender, Option.map_map]
    cases hloaded : loaded[place]? with
    | none => rfl
    | some session =>
      have hstate : (loaded.map (·.state))[place]? = some session.state := by
        rw [List.getElem?_map, hloaded]
        rfl
      simp only [Option.map_some, Function.comp_apply, view, Session.withState, hchannels,
        (state.channels.get_append_of_getElem? hstate).1]
  · rw [if_neg hsender, if_neg hsender]
    cases hcached : state.cachedAt? other place with
    | none => rfl
    | some session =>
      simp only [Option.map_some, view, hchannels, Pool.get_append_of_holds (h.held other place session hcached)]

/-- Sessions that are loaded are cached. -/
theorem Caches.withLoaded (h : state.Caches P) {sender : String} {loaded : List (Session Channel)}
    (hloaded : ∀ session ∈ loaded, session.Named ∧ session.name.sender = sender ∧ P session)
    (hids : (loaded.map (·.sessionId)).Nodup) : (state.withLoaded sender loaded).Caches P where
  held other place session hsession := by
    have hchannels : (state.withLoaded sender loaded).channels = ⟨state.channels.items ++ loaded.map (·.state)⟩ := by
      unfold MachineState.withLoaded
      rw [Machine.share_eq]
    rw [cachedAt?_withLoaded] at hsession
    rw [hchannels]
    split at hsession
    · obtain ⟨found, hfound, rfl⟩ := Option.map_eq_some_iff.mp hsession
      have hstate : (loaded.map (·.state))[place]? = some found.state := by
        rw [List.getElem?_map, hfound]
        rfl
      exact (state.channels.get_append_of_getElem? hstate).2
    · have hheld := h.held other place session hsession
      simp only [Pool.Holds, List.length_append] at hheld ⊢
      omega
  slots other place other' place' session hsession session' hsession' hslot := by
    -- The slots of loaded sessions lie behind all that were given out before.
    rw [cachedAt?_withLoaded] at hsession hsession'
    split at hsession
    · next hsender =>
      obtain ⟨found, hfound, rfl⟩ := Option.map_eq_some_iff.mp hsession
      split at hsession'
      · next hsender' =>
        obtain ⟨found', hfound', rfl⟩ := Option.map_eq_some_iff.mp hsession'
        have hplace := (Slot.mk.injEq _ _).mp hslot
        exact ⟨hsender.trans hsender'.symm, by omega⟩
      · have hheld := h.held other' place' session' hsession'
        rw [← hslot] at hheld
        simp only [Pool.Holds, Session.withState] at hheld
        omega
    · split at hsession'
      · obtain ⟨found', hfound', rfl⟩ := Option.map_eq_some_iff.mp hsession'
        have hheld := h.held other place session hsession
        rw [hslot] at hheld
        simp only [Pool.Holds, Session.withState] at hheld
        omega
      · exact h.slots other place other' place' session hsession session' hsession' hslot
  kept other place session hsession := by
    rw [h.viewAt?_withLoaded] at hsession
    split at hsession
    · next hsender =>
      subst hsender
      exact hloaded session (List.mem_of_getElem? hsession)
    · exact h.kept other place session hsession
  ids other place place' session hsession session' hsession' hid := by
    rw [h.viewAt?_withLoaded] at hsession hsession'
    split at hsession
    · next hsender =>
      rw [if_pos hsender] at hsession'
      have hat {index : ℕ} {found : Session Channel} (hfound : loaded[index]? = some found) :
          (loaded.map (·.sessionId))[index]? = some found.sessionId := by
        rw [List.getElem?_map, hfound]
        rfl
      have hlt := (List.getElem?_eq_some_iff.mp (hat hsession)).1
      exact (List.getElem?_inj hlt hids).mp (((hat hsession).trans (congrArg some hid)).trans (hat hsession').symm)
    · next hsender =>
      rw [if_neg hsender] at hsession'
      exact h.ids other place place' session hsession session' hsession' hid

/-- One place of the cache has another session, be the place held or new. It has a slot of its own and no
identifier of another place of its list, and the other sessions are seen as before. -/
structure Puts (state after : MachineState) (sender : String) (place : ℕ) (session : Session (Slot Channel)) :
    Prop where
  cached : ∀ other index, after.cachedAt? other index =
    if other = sender ∧ index = place then some session else state.cachedAt? other index
  held : after.channels.Holds session.state
  kept : ∀ other index, ∀ found ∈ state.cachedAt? other index, ¬(other = sender ∧ index = place) →
    after.channels.Holds found.state ∧ found.state ≠ session.state ∧ after.view found = state.view found
  ids : ∀ index, ∀ found ∈ state.cachedAt? sender index, index ≠ place → found.sessionId ≠ session.sessionId

omit [Suite] in
/-- At its place the session is seen, and at any other place what was seen there. -/
theorem Puts.viewAt? {after : MachineState} {sender : String} {place : ℕ} {session : Session (Slot Channel)}
    (h : Puts state after sender place session) (other : String) (index : ℕ) :
    after.viewAt? other index =
      if other = sender ∧ index = place then some (after.view session) else state.viewAt? other index := by
  unfold MachineState.viewAt?
  rw [h.cached]
  by_cases hsame : other = sender ∧ index = place
  · rw [if_pos hsame, if_pos hsame, Option.map_some]
  · rw [if_neg hsame, if_neg hsame]
    cases hfound : state.cachedAt? other index with
    | none => rfl
    | some found => rw [Option.map_some, Option.map_some, (h.kept other index found hfound hsame).2.2]

/-- The session has to have the property, and those of other names keep it. -/
theorem Caches.puts (h : state.Caches P) {after : MachineState} {sender : String} {place : ℕ}
    {session : Session (Slot Channel)} (hputs : Puts state after sender place session)
    (hsession : (after.view session).Named ∧ (after.view session).name.sender = sender ∧ Q (after.view session))
    (hothers : ∀ other : Session Channel, other.name ≠ (after.view session).name → P other → Q other) :
    after.Caches Q where
  held other index found hfound := by
    rw [hputs.cached] at hfound
    split at hfound
    · obtain rfl := Option.some.inj hfound
      exact hputs.held
    · next hdiffers => exact (hputs.kept other index found hfound hdiffers).1
  slots other index other' index' found hfound found' hfound' hslot := by
    rw [hputs.cached] at hfound hfound'
    split at hfound
    · next hsame =>
      obtain rfl := Option.some.inj hfound
      split at hfound'
      · next hsame' => exact ⟨hsame.1.trans hsame'.1.symm, hsame.2.trans hsame'.2.symm⟩
      · next hdiffers => exact absurd hslot.symm (hputs.kept other' index' found' hfound' hdiffers).2.1
    · next hdiffers =>
      split at hfound'
      · obtain rfl := Option.some.inj hfound'
        exact absurd hslot (hputs.kept other index found hfound hdiffers).2.1
      · exact h.slots other index other' index' found hfound found' hfound' hslot
  kept other index found hfound := by
    rw [hputs.viewAt?] at hfound
    split at hfound
    · next hsame =>
      obtain rfl := Option.some.inj hfound
      exact hsame.1 ▸ hsession
    · next hdiffers =>
      obtain ⟨hnamed, hsender, hfoundP⟩ := h.kept other index found hfound
      refine ⟨hnamed, hsender, hothers found (fun hname => ?_) hfoundP⟩
      -- A session of the same name would stand at the same place.
      obtain ⟨cached, hcached, rfl⟩ := Option.map_eq_some_iff.mp hfound
      obtain rfl : other = sender := hsender.symm.trans ((congrArg SessionName.sender hname).trans hsession.2.1)
      exact hputs.ids index cached hcached (fun heq => hdiffers ⟨rfl, heq⟩) (congrArg SessionName.sessionId hname)
  ids other index index' found hfound found' hfound' hid := by
    obtain ⟨cached, hcached, rfl⟩ := Option.map_eq_some_iff.mp hfound
    obtain ⟨cached', hcached', rfl⟩ := Option.map_eq_some_iff.mp hfound'
    rw [hputs.cached] at hcached hcached'
    split at hcached
    · next hsame =>
      obtain rfl := Option.some.inj hcached
      split at hcached'
      · next hsame' => exact hsame.2.trans hsame'.2.symm
      · next hdiffers =>
        exact absurd hid.symm
          (hputs.ids index' cached' (hsame.1 ▸ hcached') fun heq => hdiffers ⟨hsame.1, heq⟩)
    · next hdiffers =>
      split at hcached'
      · next hsame' =>
        obtain rfl := Option.some.inj hcached'
        exact absurd hid (hputs.ids index cached (hsame'.1 ▸ hcached) fun heq => hdiffers ⟨hsame'.1, heq⟩)
      · exact h.ids other index index' _ (viewAt?_of_cachedAt? hcached) _ (viewAt?_of_cachedAt? hcached') hid

omit [Suite] in
/-- A session that was used stands in the list of its sender, and the other lists are as before. -/
theorem find?_putUsed {sender : String} {sessions : List (Session (Slot Channel))}
    (hlist : state.machine.sessions.find? sender = some sessions) (place : ℕ) (slot : Slot Channel)
    (used : Session Channel) (other : String) :
    (state.putUsed sender place slot used).machine.sessions.find? other =
      if other = sender then some (sessions.set place (used.withState slot))
      else state.machine.sessions.find? other := by
  unfold putUsed SessionCache.replace
  simp only [hlist]
  exact Dict.find?_insert ..

omit [Suite] in
theorem cachedAt?_putUsed {sender : String} {place : ℕ} {session : Session (Slot Channel)}
    (hcached : state.cachedAt? sender place = some session) (used : Session Channel) (other : String) (index : ℕ) :
    (state.putUsed sender place session.state used).cachedAt? other index =
      if other = sender ∧ index = place then some (used.withState session.state)
      else state.cachedAt? other index := by
  obtain ⟨sessions, hlist, hplace⟩ := Option.bind_eq_some_iff.mp hcached
  have hlt := (List.getElem?_eq_some_iff.mp hplace).1
  unfold cachedAt?
  rw [find?_putUsed hlist]
  by_cases hsender : other = sender
  · subst hsender
    by_cases hindex : index = place
    · subst hindex
      simp [hlt]
    · simp [hindex, hlist, List.getElem?_set_ne (Ne.symm hindex)]
  · simp [hsender]

omit [Suite] in
/-- No list is made by that. -/
theorem isSome_find?_of_putUsed {sender : String} {place : ℕ} {session : Session (Slot Channel)}
    (hcached : state.cachedAt? sender place = some session) {slot : Slot Channel} {used : Session Channel}
    {other : String} (h : ((state.putUsed sender place slot used).machine.sessions.find? other).isSome) :
    (state.machine.sessions.find? other).isSome := by
  obtain ⟨sessions, hlist, -⟩ := Option.bind_eq_some_iff.mp hcached
  rw [find?_putUsed hlist] at h
  by_cases hsender : other = sender
  · rw [hsender, hlist]
    rfl
  · rwa [if_neg hsender] at h

/-- A session that was used is put at its place. -/
theorem Caches.puts_putUsed (h : state.Caches P) {sender : String} {place : ℕ} {session : Session (Slot Channel)}
    (hcached : state.cachedAt? sender place = some session) {used : Session Channel}
    (hname : used.name = session.name) :
    Puts state (state.putUsed sender place session.state used) sender place (used.withState session.state) where
  cached := cachedAt?_putUsed hcached used
  held := (h.held sender place session hcached).set _ _
  kept other index found hfound hdiffers := by
    have hslot : found.state ≠ session.state := fun heq =>
      hdiffers (h.slots other index sender place found hfound session hcached heq)
    refine ⟨(h.held other index found hfound).set _ _, hslot, ?_⟩
    simp only [view, MachineState.putUsed, Pool.get_set_of_ne _ hslot]
  ids index found hfound hdiffers hid :=
    hdiffers (h.ids sender index place _ (viewAt?_of_cachedAt? hfound) _ (viewAt?_of_cachedAt? hcached)
      (hid.trans (congrArg SessionName.sessionId hname)))

/-- It is seen there as it is after its use. -/
theorem Caches.view_putUsed (h : state.Caches P) {sender : String} {place : ℕ} {session : Session (Slot Channel)}
    (hcached : state.cachedAt? sender place = some session) (used : Session Channel) :
    (state.putUsed sender place session.state used).view (used.withState session.state) = used := by
  simp only [view, MachineState.putUsed, Session.withState, Pool.get_set_self (h.held sender place session hcached)]

/-- A session that was used has to have the property, and those of other names keep it. -/
theorem Caches.putUsed (h : state.Caches P) {sender : String} {place : ℕ} {session : Session (Slot Channel)}
    (hcached : state.cachedAt? sender place = some session) {used : Session Channel}
    (hname : used.name = session.name) (hnamed : used.Named) (hused : Q used)
    (hothers : ∀ other : Session Channel, other.name ≠ used.name → P other → Q other) :
    (state.putUsed sender place session.state used).Caches Q := by
  obtain ⟨-, hsender, -⟩ := h.kept sender place _ (viewAt?_of_cachedAt? hcached)
  have hview := h.view_putUsed hcached used
  refine h.puts (h.puts_putUsed hcached hname) ?_ ?_
  · rw [hview]
    exact ⟨hnamed, (congrArg SessionName.sender hname).trans hsender, hused⟩
  · rw [hview]
    exact hothers

/-- The state with one more session in the cache. -/
def cacheSession (state : MachineState) (session : Session (Slot Channel)) : MachineState :=
  { state with
    machine := { state.machine with sessions := (state.machine.sessions.add session).2 } }

omit [Suite] in
/-- The list of a sender has an identifier if a session at one of its places has it. -/
theorem hasId_iff {sender sessionId : String} :
    SessionCache.hasId sessionId ((state.machine.sessions.find? sender).getD []) = true ↔
      ∃ place session, state.cachedAt? sender place = some session ∧ session.sessionId = sessionId := by
  have hat (place : ℕ) : state.cachedAt? sender place = ((state.machine.sessions.find? sender).getD [])[place]? := by
    unfold cachedAt?
    cases state.machine.sessions.find? sender <;> simp
  simp only [hat, SessionCache.hasId, List.any_eq_true, beq_iff_eq]
  constructor
  · rintro ⟨session, hsession, hid⟩
    obtain ⟨place, hplace⟩ := List.getElem?_of_mem hsession
    exact ⟨place, session, hplace, hid⟩
  · rintro ⟨place, session, hplace, hid⟩
    exact ⟨session, List.mem_of_getElem? hplace, hid⟩

omit [Suite] in
/-- A session is not added to a list that has its identifier. -/
theorem cacheSession_of_hasId {session : Session (Slot Channel)}
    (hid : SessionCache.hasId session.sessionId
      ((state.machine.sessions.find? session.senderKey.toBase64).getD []) = true) :
    state.cacheSession session = state := by
  unfold cacheSession SessionCache.add SessionCache.getOrInsert
  cases hlist : state.machine.sessions.find? session.senderKey.toBase64 with
  | none =>
    rw [hlist] at hid
    cases hid
  | some list =>
    rw [hlist, Option.getD_some] at hid
    simp only [hlist, hid, if_true]

omit [Suite] in
/-- Otherwise it is added at the end of the list of its sender, which is made if there is none. -/
theorem find?_cacheSession {session : Session (Slot Channel)}
    (hid : SessionCache.hasId session.sessionId
      ((state.machine.sessions.find? session.senderKey.toBase64).getD []) = false) (other : String) :
    (state.cacheSession session).machine.sessions.find? other =
      if other = session.senderKey.toBase64 then
        some ((state.machine.sessions.find? session.senderKey.toBase64).getD [] ++ [session])
      else state.machine.sessions.find? other := by
  unfold cacheSession SessionCache.add SessionCache.getOrInsert
  unfold SessionCache.find? at hid ⊢
  cases hlist : state.machine.sessions.senders.find? session.senderKey.toBase64 with
  | none =>
    simp only [hlist, Option.getD_none, SessionCache.hasId, List.any_nil, SessionCache.setSender,
      Dict.find?_insert, Bool.false_eq_true, if_false]
    split <;> rfl
  | some list =>
    rw [hlist, Option.getD_some] at hid
    simp only [hlist, Option.getD_some, hid, SessionCache.setSender, Dict.find?_insert, Bool.false_eq_true,
      if_false]

omit [Suite] in
/-- Nothing stands behind the list of a sender. -/
theorem cachedAt?_length (state : MachineState) (sender : String) :
    state.cachedAt? sender ((state.machine.sessions.find? sender).getD []).length = none := by
  unfold cachedAt?
  cases state.machine.sessions.find? sender with
  | none => rfl
  | some sessions => exact List.getElem?_eq_none (Nat.le_refl _)

omit [Suite] in
/-- A session that is added stands behind the others of its sender. -/
theorem cachedAt?_cacheSession {session : Session (Slot Channel)}
    (hid : SessionCache.hasId session.sessionId
      ((state.machine.sessions.find? session.senderKey.toBase64).getD []) = false) (other : String) (place : ℕ) :
    let sessions := (state.machine.sessions.find? session.senderKey.toBase64).getD []
    (state.cacheSession session).cachedAt? other place =
      if other = session.senderKey.toBase64 ∧ place = sessions.length then some session
      else state.cachedAt? other place := by
  intro sessions
  have hfind := find?_cacheSession hid other
  change _ = if _ then some (sessions ++ [session]) else _ at hfind
  unfold cachedAt?
  rw [hfind]
  by_cases hsender : other = session.senderKey.toBase64
  · subst hsender
    have hlist : (state.machine.sessions.find? session.senderKey.toBase64).bind (·[place]?) = sessions[place]? := by
      unfold sessions
      cases state.machine.sessions.find? session.senderKey.toBase64 <;> simp
    rw [if_pos rfl, hlist, Option.bind_some, List.getElem?_append]
    by_cases hplace : place = sessions.length
    · simp [hplace]
    · by_cases hlt : place < sessions.length
      · simp [hlt, hplace]
      · have hbehind : sessions.length < place := by omega
        rw [if_neg hlt, if_neg fun hsame => hplace hsame.2, List.getElem?_eq_none (Nat.not_lt.mp hlt),
          List.getElem?_eq_none]
        simp only [List.length_singleton]
        omega
  · rw [if_neg hsender, if_neg fun hsame => hsender hsame.1]

/-- A session with a slot of its own and a new identifier is put there. -/
theorem Caches.puts_cacheSession (h : state.Caches P) {session : Session (Slot Channel)}
    (hheld : state.channels.Holds session.state)
    (hslot : ∀ sender place, ∀ other ∈ state.cachedAt? sender place, other.state ≠ session.state)
    (hid : SessionCache.hasId session.sessionId
      ((state.machine.sessions.find? session.senderKey.toBase64).getD []) = false) :
    Puts state (state.cacheSession session) session.senderKey.toBase64
      ((state.machine.sessions.find? session.senderKey.toBase64).getD []).length session where
  cached := cachedAt?_cacheSession hid
  held := hheld
  kept other index found hfound _ := ⟨h.held other index found hfound, hslot other index found hfound, rfl⟩
  ids index found hfound _ hsame := absurd (hasId_iff.mpr ⟨index, found, hfound, hsame⟩) (Bool.eq_false_iff.mp hid)

/-- A session that is added has to have the property, and a slot of its own. -/
theorem Caches.cacheSession (h : state.Caches P) {session : Session (Slot Channel)}
    (hheld : state.channels.Holds session.state)
    (hslot : ∀ sender place, ∀ other ∈ state.cachedAt? sender place, other.state ≠ session.state)
    (hnamed : (state.view session).Named) (hsession : P (state.view session)) :
    (state.cacheSession session).Caches P := by
  cases hid : SessionCache.hasId session.sessionId
      ((state.machine.sessions.find? session.senderKey.toBase64).getD []) with
  | true =>
    rw [cacheSession_of_hasId hid]
    exact h
  | false => exact h.puts (h.puts_cacheSession hheld hslot hid) ⟨hnamed, rfl, hsession⟩ fun _ _ => id

/-- What is held is seen as before when one more channel is held. -/
theorem Caches.hold (h : state.Caches P) (channel : Channel) :
    Caches { state with channels := (state.channels.hold channel).2 } P := by
  have hview : ∀ sender place, ({ state with channels := (state.channels.hold channel).2 } : MachineState).viewAt?
      sender place = state.viewAt? sender place := by
    intro sender place
    unfold viewAt?
    cases hcached : state.cachedAt? sender place with
    | none => exact congrArg (Option.map _) hcached
    | some session =>
      have hheld := h.held sender place session hcached
      refine (congrArg (Option.map _) hcached).trans ?_
      simp only [Option.map_some, view, Pool.get_hold_of_holds hheld]
  exact
    { held := fun sender place session hsession => (h.held sender place session hsession).hold _
      slots := h.slots
      kept := fun sender place session hsession => h.kept sender place session (hview sender place ▸ hsession)
      ids := fun sender place place' session hsession session' hsession' =>
        h.ids sender place place' session (hview sender place ▸ hsession) session' (hview sender place' ▸ hsession') }

end MachineState

end RoomCrypt
