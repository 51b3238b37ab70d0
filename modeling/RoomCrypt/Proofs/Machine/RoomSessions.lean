import RoomCrypt.Machine.RoomKeys
import RoomCrypt.Proofs.Machine.Calls
import RoomCrypt.Proofs.Megolm.Sessions
import RoomCrypt.Proofs.Store.Texts

/-!
# The room sessions of a machine

A machine has a room session if it is cached, or else if it can be loaded. Sessions are cached and stored
under their own names, so that what is found under a name has that name, and a session that is put in the
cache changes what the machine has under the name of the session and nothing else.
-/

namespace RoomCrypt

open Megolm (InboundSession Receiver ExportedKey)
open Store Store.MemoryStore

namespace Store

/-- A session in the cache is found under its name. -/
theorem RoomSessionCache.find?_add {σ : Type} (cache : RoomSessionCache σ) (session : InboundSession σ)
    (name : RoomSessionName) :
    (cache.add session).2.find? name.room name.senderKey.toBase64 name.sessionId =
      if name = session.name then some session
      else cache.find? name.room name.senderKey.toBase64 name.sessionId := by
  simp only [RoomSessionName.eq_iff_texts]
  exact Dict.find?_insert_nested₂ cache.rooms _ _ _ session _ _ _

namespace MemoryStore

/-- The text that a store has under a name. -/
def roomText? (store : MemoryStore) (name : RoomSessionName) : Option String :=
  (store.roomSessions.find? name.room.text).bind fun senders =>
    (senders.find? name.senderKey.toBase64).bind (·.find? name.sessionId)

/-- A session in the store is found under its name, as its text. -/
theorem roomText?_saveRoomSession (store : MemoryStore) (session : InboundSession Receiver)
    (name : RoomSessionName) :
    (store.saveRoomSession session).roomText? name =
      if name = session.name then some (roomSessionText session) else store.roomText? name := by
  simp only [RoomSessionName.eq_iff_texts]
  exact Dict.find?_insert_nested₂ store.roomSessions _ _ _ (roomSessionText session) _ _ _

/-- What is stored under other names stays. -/
theorem roomText?_foldl_of_ne (store : MemoryStore) {sessions : List (InboundSession Receiver)} {name : RoomSessionName}
    (hother : ∀ session ∈ sessions, session.name ≠ name) :
    (sessions.foldl saveRoomSession store).roomText? name = store.roomText? name := by
  induction sessions generalizing store with
  | nil => rfl
  | cons session sessions ih =>
    obtain ⟨hsession, hsessions⟩ := List.forall_mem_cons.mp hother
    rw [List.foldl_cons, ih _ hsessions, roomText?_saveRoomSession, if_neg hsession.symm]

/-- A session is loaded from its text. -/
theorem loadRoomSession_eq [Suite] (store : MemoryStore) (name : RoomSessionName) :
    store.loadRoomSession name.room name.senderKey name.sessionId =
      match store.roomText? name with
      | none => .ok none
      | some text => (roomSessionOfText? text).map some := by
  rfl

variable [Suite]

/-- All texts are those of genuine sessions, under their names. -/
def RoomsTidy (store : MemoryStore) : Prop :=
  ∀ name, ∀ text ∈ store.roomText? name, ∃ session : InboundSession Receiver,
    text = roomSessionText session ∧ session.name = name ∧ session.Genuine

/-- Genuine sessions may be saved. -/
theorem RoomsTidy.saveRoomSession {store : MemoryStore} (h : store.RoomsTidy) {session : InboundSession Receiver}
    (hgenuine : session.Genuine) : (store.saveRoomSession session).RoomsTidy := by
  intro name text htext
  rw [roomText?_saveRoomSession] at htext
  split at htext
  · next hname => exact ⟨session, (Option.some.inj htext).symm, hname.symm, hgenuine⟩
  · exact h name text htext

/-- And so may any number of them. -/
theorem RoomsTidy.saveAll {store : MemoryStore} (h : store.RoomsTidy) {sessions : List (InboundSession Receiver)}
    (hgenuine : ∀ session ∈ sessions, session.Genuine) :
    (sessions.foldl MemoryStore.saveRoomSession store).RoomsTidy := by
  induction sessions generalizing store with
  | nil => exact h
  | cons session sessions ih =>
    obtain ⟨hsession, hsessions⟩ := List.forall_mem_cons.mp hgenuine
    exact ih (h.saveRoomSession hsession) hsessions

end MemoryStore

end Store

namespace MachineState

/-- The cached session with a name. -/
def cachedRoomSession? (state : MachineState) (name : RoomSessionName) : Option (InboundSession Receiver) :=
  state.machine.roomSessions.find? name.room name.senderKey.toBase64 name.sessionId

variable [Suite]

/-- The session that a machine has under a name, be it cached or stored. -/
def roomSession? (state : MachineState) (name : RoomSessionName) :
    Except StoreError (Option (InboundSession Receiver)) :=
  match state.cachedRoomSession? name with
  | some session => .ok (some session)
  | none => state.backend.store.loadRoomSession name.room name.senderKey name.sessionId

/-- The session key that a machine has for a name. -/
def roomKey? (state : MachineState) (name : RoomSessionName) : Except StoreError (Option ExportedKey) :=
  (state.roomSession? name).map (Option.map fun session => session.state.firstKey)

/-- All sessions are genuine, and they are cached and stored under their names. -/
structure RoomsTidy (state : MachineState) : Prop where
  cached : ∀ name, ∀ session ∈ state.cachedRoomSession? name, session.name = name ∧ session.Genuine
  stored : state.backend.store.RoomsTidy

/-- The state with a session in the cache. -/
def cacheRoomSession (state : MachineState) (session : InboundSession Receiver) : MachineState :=
  { state with
    machine := { state.machine with roomSessions := (state.machine.roomSessions.add session).2 } }

variable {state : MachineState} {session : InboundSession Receiver}

/-- What a machine has under a name has that name. -/
theorem RoomsTidy.of_roomSession? (h : state.RoomsTidy) {name : RoomSessionName}
    (hfound : state.roomSession? name = .ok (some session)) : session.name = name ∧ session.Genuine := by
  unfold roomSession? at hfound
  cases hcached : state.cachedRoomSession? name with
  | some cached =>
    rw [hcached] at hfound
    obtain rfl := Option.some.inj (Except.ok.inj hfound)
    exact h.cached name cached hcached
  | none =>
    rw [hcached] at hfound
    simp only [loadRoomSession_eq] at hfound
    cases htext : state.backend.store.roomText? name with
    | none =>
      rw [htext] at hfound
      cases hfound
    | some text =>
      obtain ⟨saved, rfl, hname, hgenuine⟩ := h.stored name text htext
      rw [htext] at hfound
      simp only [roomSessionOfText?_roomSessionText] at hfound
      cases hload : InboundSession.ofPickle? saved.pickle with
      | error e =>
        rw [hload] at hfound
        cases hfound
      | ok loaded =>
        rw [hload] at hfound
        obtain rfl := Option.some.inj (Except.ok.inj hfound)
        obtain ⟨hloaded, hsame, -⟩ := hgenuine.ofPickle? hload
        exact ⟨hsame.trans hname, hloaded⟩

/-- The key that a machine has for a name is that of the session of the name. -/
theorem RoomsTidy.sessionId_of_roomKey? (h : state.RoomsTidy) {name : RoomSessionName} {key : ExportedKey}
    (hkey : state.roomKey? name = .ok (some key)) : key.sessionId = name.sessionId := by
  unfold roomKey? at hkey
  cases hfound : state.roomSession? name with
  | error e =>
    rw [hfound] at hkey
    cases hkey
  | ok found =>
    rw [hfound] at hkey
    obtain ⟨session, rfl, rfl⟩ := Option.map_eq_some_iff.mp (Except.ok.inj hkey)
    obtain ⟨rfl, hgenuine⟩ := h.of_roomSession? hfound
    exact hgenuine.sessionId_eq.symm

omit [Suite] in
theorem cachedRoomSession?_cache (state : MachineState) (session : InboundSession Receiver) (name : RoomSessionName) :
    (state.cacheRoomSession session).cachedRoomSession? name =
      if name = session.name then some session else state.cachedRoomSession? name :=
  RoomSessionCache.find?_add _ _ _

omit [Suite] in
/-- What is cached stays cached. -/
theorem isSome_cachedRoomSession?_cache (state : MachineState) (session : InboundSession Receiver)
    (name : RoomSessionName) (hcached : (state.cachedRoomSession? name).isSome) :
    ((state.cacheRoomSession session).cachedRoomSession? name).isSome := by
  rw [cachedRoomSession?_cache]
  split
  · rfl
  · exact hcached

/-- A session that is put in the cache is what the machine has under its name. -/
theorem roomSession?_cache (state : MachineState) (session : InboundSession Receiver) (name : RoomSessionName) :
    (state.cacheRoomSession session).roomSession? name =
      if name = session.name then .ok (some session) else state.roomSession? name := by
  unfold roomSession?
  rw [cachedRoomSession?_cache]
  by_cases hname : name = session.name
  · rw [if_pos hname, if_pos hname]
  · rw [if_neg hname, if_neg hname]
    rfl

/-- Genuine sessions may be put in the cache. -/
theorem RoomsTidy.cache (h : state.RoomsTidy) (hgenuine : session.Genuine) :
    (state.cacheRoomSession session).RoomsTidy where
  cached name found hfound := by
    rw [cachedRoomSession?_cache] at hfound
    split at hfound
    · next hname =>
      obtain rfl := Option.some.inj hfound
      exact ⟨hname.symm, hgenuine⟩
    · exact h.cached name found hfound
  stored := h.stored

/-- A session that is saved is stored under its name. -/
theorem roomText?_afterSave (state : MachineState) (session : InboundSession Receiver) (name : RoomSessionName) :
    (state.afterSave { roomSessions := [session] }).backend.store.roomText? name =
      if name = session.name then some (roomSessionText session) else state.backend.store.roomText? name :=
  roomText?_saveRoomSession state.backend.store session name

/-- A session that is saved is what the machine has under its name. -/
theorem roomSession?_afterSave (state : MachineState) (session : InboundSession Receiver) (name : RoomSessionName) :
    (state.afterSave { roomSessions := [session] }).roomSession? name =
      if name = session.name then .ok (some session) else state.roomSession? name := by
  unfold roomSession?
  rw [show (state.afterSave { roomSessions := [session] }).cachedRoomSession? name = _ from
    cachedRoomSession?_cache state session name]
  by_cases hname : name = session.name
  · rw [if_pos hname, if_pos hname]
  · rw [if_neg hname, if_neg hname, loadRoomSession_eq, loadRoomSession_eq, roomText?_afterSave, if_neg hname]

/-- Genuine sessions may be saved. -/
theorem RoomsTidy.afterSave (h : state.RoomsTidy) (hgenuine : session.Genuine) :
    (state.afterSave { roomSessions := [session] }).RoomsTidy where
  cached := (h.cache hgenuine).cached
  stored := h.stored.saveRoomSession hgenuine

/-- A machine that has just been made over genuine sessions is tidy. -/
theorem roomsTidy_boot (user : UserId) {prior : List (InboundSession Receiver)}
    (hprior : ∀ session ∈ prior, session.Genuine) : (boot user (prior.foldl saveRoomSession {})).RoomsTidy where
  cached name session hsession := by cases hsession
  stored := MemoryStore.RoomsTidy.saveAll (fun name text htext => by cases htext) hprior

end MachineState

end RoomCrypt
