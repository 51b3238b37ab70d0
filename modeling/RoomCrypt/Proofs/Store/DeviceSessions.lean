import RoomCrypt.Dict.Lemmas
import RoomCrypt.Proofs.Call
import RoomCrypt.Proofs.Olm.Restored
import RoomCrypt.Proofs.Store.Texts

/-!
# Stored sessions with devices

A session with a device is stored under the text of the key of the device and under its identifier, and a
session that is saved takes the place of the one with this name. All sessions of a device are loaded
together, each of them restored from its text.
-/

namespace RoomCrypt

open Store

/-- What a session with a device is stored under. -/
structure SessionName where
  /-- The text of the key of the device. -/
  sender : String
  sessionId : String
deriving DecidableEq

namespace Olm.Session

/-- The name under which a session is stored. -/
def name {σ : Type} (session : Session σ) : SessionName :=
  ⟨session.senderKey.toBase64, session.sessionId⟩

variable [Suite]

/-- A session is called after its channel. -/
def Named (session : Session Channel) : Prop :=
  session.sessionId = session.state.sessionId

/-- What is left of a session that is restored: the name, the chain for sending and the record. -/
structure Restores (session restored : Session Channel) : Prop where
  named : restored.Named
  name_eq : restored.name = session.name
  sender_eq : restored.state.ratchet.sender = session.state.ratchet.sender
  pickle_eq : restored.pickle = session.pickle

/-- A session that is called after its channel is so again when it is restored. -/
theorem Named.restores {config : RatchetConfig} {session restored : Session Channel} (h : session.Named)
    (hrestored : ofPickle? session.pickle config = .ok restored) : Restores session restored := by
  obtain ⟨hnamed, hdevice, hkeys, hsender, hpickle⟩ := of_ofPickle? hrestored
  have hid : restored.sessionId = session.sessionId := by
    rw [hnamed, h]
    exact congrArg SessionKeys.sessionId hkeys
  refine ⟨hnamed, ?_, hsender, hpickle⟩
  unfold name
  rw [hdevice, hid]

end Olm.Session

namespace Store.MemoryStore

open Olm (Session Channel)

/-- The text that a store has under a name. -/
def sessionText? (store : MemoryStore) (name : SessionName) : Option String :=
  (store.sessions.find? name.sender).bind (·.find? name.sessionId)

/-- A session in the store is found under its name, as its text. -/
theorem sessionText?_saveSession (store : MemoryStore) (session : Session Channel) (name : SessionName) :
    (store.saveSession session).sessionText? name =
      if name = session.name then some (sessionText session) else store.sessionText? name := by
  have hname : name = session.name ↔
      name.sender = session.senderKey.toBase64 ∧ name.sessionId = session.sessionId := by
    obtain ⟨sender, sessionId⟩ := name
    exact SessionName.mk.injEq .. ▸ Iff.rfl
  simp only [hname]
  exact Dict.find?_insert_nested store.sessions _ _ (sessionText session) _ _

variable [Suite]

/-- All texts are those of sessions that have a property, under their names. -/
def Keeps (store : MemoryStore) (P : Session Channel → Prop) : Prop :=
  ∀ name, ∀ text ∈ store.sessionText? name, ∃ session, text = sessionText session ∧ session.Named ∧
    session.name = name ∧ P session

/-- A store without sessions keeps any property. -/
theorem keeps_empty {P : Session Channel → Prop} (config : Olm.RatchetConfig) : Keeps { config } P := by
  intro name text htext
  cases htext

/-- A session that is saved has to have the property, and those of other names keep it. -/
theorem Keeps.saveSession {store : MemoryStore} {P Q : Session Channel → Prop} (h : store.Keeps P)
    {session : Session Channel} (hothers : ∀ other, other.name ≠ session.name → P other → Q other)
    (hnamed : session.Named) (hsession : Q session) : (store.saveSession session).Keeps Q := by
  intro name text htext
  rw [sessionText?_saveSession] at htext
  by_cases hname : name = session.name
  · rw [if_pos hname] at htext
    exact ⟨session, (Option.some.inj htext).symm, hnamed, hname.symm, hsession⟩
  · rw [if_neg hname] at htext
    obtain ⟨other, rfl, hother, rfl, hkept⟩ := h name text htext
    exact ⟨other, rfl, hother, rfl, hothers other hname hkept⟩

/-- A property may be weakened. -/
theorem Keeps.imp {store : MemoryStore} {P Q : Session Channel → Prop} (h : store.Keeps P)
    (hweaker : ∀ session, P session → Q session) : store.Keeps Q := by
  intro name text htext
  obtain ⟨session, heq, hnamed, hname, hkept⟩ := h name text htext
  exact ⟨session, heq, hnamed, hname, hweaker session hkept⟩

/-- The sessions of a sender are restored from their records, one after the other. -/
theorem loadSessions_eq {store : MemoryStore} {sender : String} {sessions : List (Session Channel)}
    (htexts : (store.sessions.find? sender).map Dict.values = some (sessions.map sessionText)) :
    store.loadSessions sender =
      (sessions.mapM fun session =>
        (Session.ofPickle? session.pickle store.config).mapError StoreError.pickle).map some := by
  obtain ⟨texts, hfind, hvalues⟩ := Option.map_eq_some_iff.mp htexts
  have hpickles : (sessions.map sessionText).mapM pickledOfText? = .ok (sessions.map Session.pickle) := by
    rw [List.mapM_map, mapM_eq_ok (g := Session.pickle) fun session _ => ?_]
    rw [Function.comp_apply, pickledOfText?_sessionText]
  unfold MemoryStore.loadSessions
  simp only [hfind, hvalues, hpickles, bind, Except.bind, List.mapM_map, Function.comp_def]
  cases sessions.mapM fun session => (Session.ofPickle? session.pickle store.config).mapError StoreError.pickle <;> rfl

/-- Sessions that are restored from their records are loaded as they were saved. -/
theorem loadSessions_of_restored {store : MemoryStore} {sender : String} {sessions : List (Session Channel)}
    (htexts : (store.sessions.find? sender).map Dict.values = some (sessions.map sessionText))
    (hrestored : ∀ session ∈ sessions, Session.ofPickle? session.pickle store.config = .ok session) :
    store.loadSessions sender = .ok (some sessions) := by
  rw [loadSessions_eq htexts, mapM_eq_ok (g := id) fun session hsession => ?_, List.map_id]
  · rfl
  · rw [hrestored session hsession]
    rfl

/-- The sessions of a row of entries are restored one by one. -/
theorem restores_of_mapM {P : Session Channel → Prop} {config : Olm.RatchetConfig} {sender : String}
    {entries : List (String × String)} (h : ∀ entry ∈ entries, ∃ session, entry.2 = sessionText session ∧
      session.Named ∧ session.name = ⟨sender, entry.1⟩ ∧ P session)
    {pickles : List Olm.PickledSession} {loaded : List (Session Channel)}
    (hread : (entries.map (·.2)).mapM pickledOfText? = .ok pickles)
    (hrestored : (pickles.mapM fun pickled => (Session.ofPickle? pickled config).mapError StoreError.pickle) =
      .ok loaded) :
    loaded.map (·.sessionId) = entries.map (·.1) ∧
      ∀ restored ∈ loaded, ∃ entry ∈ entries, ∃ session, entry.2 = sessionText session ∧
        session.name = ⟨sender, entry.1⟩ ∧ P session ∧ session.Restores restored := by
  induction entries generalizing pickles loaded with
  | nil =>
    cases hread
    cases hrestored
    exact ⟨rfl, by simp⟩
  | cons entry entries ih =>
    obtain ⟨⟨session, htext, hnamed, hname, hkept⟩, hentries⟩ := List.forall_mem_cons.mp h
    rw [List.map_cons, List.mapM_cons] at hread
    obtain ⟨pickled, hpickled, hread⟩ := bind_eq_ok_iff.mp hread
    obtain ⟨rest, hrest, hread⟩ := bind_eq_ok_iff.mp hread
    obtain rfl := Except.ok.inj hread
    rw [htext, pickledOfText?_sessionText] at hpickled
    obtain rfl := Except.ok.inj hpickled
    rw [List.mapM_cons] at hrestored
    obtain ⟨restored, hsession, hrestored⟩ := bind_eq_ok_iff.mp hrestored
    obtain ⟨others, hothers, hrestored⟩ := bind_eq_ok_iff.mp hrestored
    obtain rfl := Except.ok.inj hrestored
    obtain ⟨hids, hmembers⟩ := ih hentries hrest hothers
    have hrestores := hnamed.restores (eq_ok_of_mapError_eq_ok hsession)
    refine ⟨?_, List.forall_mem_cons.mpr ⟨⟨entry, List.mem_cons_self, session, htext, hname, hkept, hrestores⟩,
      fun other hother => ?_⟩⟩
    · rw [List.map_cons, List.map_cons, hids]
      exact congrArg (· :: _) (congrArg SessionName.sessionId (hrestores.name_eq.trans hname))
    · obtain ⟨entry', hentry', hother⟩ := hmembers other hother
      exact ⟨entry', List.mem_cons_of_mem _ hentry', hother⟩

/-- The sessions of a sender are those of his names, each restored from its text. -/
theorem Keeps.loadSessions {store : MemoryStore} {P : Session Channel → Prop} (h : store.Keeps P) {sender : String}
    {found : Option (List (Session Channel))} (hload : store.loadSessions sender = .ok found) :
    (found.getD []).map (·.sessionId) = ((store.sessions.find? sender).getD .empty).keys ∧
      ∀ restored ∈ found.getD [], restored.name.sender = sender ∧ ∃ session,
        store.sessionText? restored.name = some (sessionText session) ∧ P session ∧ session.Restores restored := by
  unfold MemoryStore.loadSessions at hload
  cases htexts : store.sessions.find? sender with
  | none =>
    rw [htexts] at hload
    obtain rfl := Except.ok.inj hload
    exact ⟨rfl, by simp⟩
  | some texts =>
    rw [htexts] at hload
    obtain ⟨pickles, hread, hload⟩ := bind_eq_ok_iff.mp hload
    obtain ⟨loaded, hrestored, hload⟩ := bind_eq_ok_iff.mp hload
    obtain rfl := Except.ok.inj hload
    have htext {entry : String × String} (hentry : entry ∈ texts.entries) :
        store.sessionText? ⟨sender, entry.1⟩ = some entry.2 := by
      unfold sessionText?
      rw [htexts]
      exact Dict.mem_entries.mp hentry
    obtain ⟨hids, hmembers⟩ := restores_of_mapM (fun entry hentry => h _ _ (htext hentry)) hread hrestored
    refine ⟨hids, fun restored hmember => ?_⟩
    obtain ⟨entry, hentry, session, heq, hname, hkept, hrestores⟩ := hmembers restored hmember
    have hsame : restored.name = ⟨sender, entry.1⟩ := hrestores.name_eq.trans hname
    rw [hsame]
    exact ⟨rfl, session, (htext hentry).trans (congrArg some heq), hkept, hrestores⟩

end Store.MemoryStore

end RoomCrypt
