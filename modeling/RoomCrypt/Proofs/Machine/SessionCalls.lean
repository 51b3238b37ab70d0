import RoomCrypt.Proofs.Machine.DeviceSessions

/-!
# Calls that use a session with a device

Encrypting for a device and decrypting what comes from it are alike: the sessions of the device are looked
up, one of them is used at its place, and it is saved. If that succeeds, the store has the record of the
session as it is in memory; if the store fails, the session in memory has moved on and the one in the store
has not.
-/

namespace RoomCrypt

open Olm (Session Channel)
open Store

variable [Suite]

namespace MachineState

variable {state : MachineState} {P Q : Session Channel → Prop}

/-- A session that is saved is stored as it is seen, and it is cached. -/
theorem afterSave_session (state : MachineState) (session : Session (Slot Channel)) :
    state.afterSave { sessions := [session] } =
      { state.cacheSession session with
        backend := { state.backend with store := state.backend.store.saveSession (state.view session) } } := rfl

/-- A session is cached at a place, as it is in memory, and the store has its record. -/
structure Persisted (state : MachineState) (sender : String) (place : ℕ) (slot : Slot Channel)
    (used : Session Channel) : Prop where
  cached : state.cachedAt? sender place = some (used.withState slot)
  seen : state.view (used.withState slot) = used
  stored : ∃ text, state.backend.store.sessionText? used.name = some text ∧
    MemoryStore.pickledOfText? text = .ok used.pickle

/-- What is left after a session was used at its place and saved. -/
def afterUse (state : MachineState) (sender : String) (place : ℕ) (slot : Slot Channel) (used : Session Channel) :
    MachineState :=
  { state.putUsed sender place slot used with
    backend := { state.backend with store := state.backend.store.saveSession used } }

section

variable {sender : String} {place : ℕ} {session : Session (Slot Channel)} {used : Session Channel}

/-- A session that was used is cached already when it is saved. -/
theorem Caches.afterSave_putUsed (h : state.Caches P) (hcached : state.cachedAt? sender place = some session)
    (hname : used.name = session.name) :
    (state.putUsed sender place session.state used).afterSave { sessions := [used.withState session.state] } =
      state.afterUse sender place session.state used := by
  obtain ⟨-, hsender, -⟩ := h.kept sender place _ (viewAt?_of_cachedAt? hcached)
  have hkey : used.senderKey.toBase64 = sender := (congrArg SessionName.sender hname).trans hsender
  have hput := cachedAt?_putUsed hcached used sender place
  rw [if_pos ⟨rfl, rfl⟩] at hput
  have hid := hasId_iff.mpr ⟨place, used.withState session.state, hput, rfl⟩
  rw [← hkey] at hid
  rw [afterSave_session, h.view_putUsed hcached used, cacheSession_of_hasId (hkey ▸ hid)]
  rfl

/-- After its use, the session is persisted. -/
theorem Caches.persisted (h : state.Caches P) (hcached : state.cachedAt? sender place = some session) :
    (state.afterUse sender place session.state used).Persisted sender place session.state used where
  cached := by
    have hput := cachedAt?_putUsed hcached used sender place
    rw [if_pos ⟨rfl, rfl⟩] at hput
    exact hput
  seen := h.view_putUsed hcached used
  stored := by
    refine ⟨MemoryStore.sessionText used, ?_, MemoryStore.pickledOfText?_sessionText used⟩
    exact (MemoryStore.sessionText?_saveSession state.backend.store used used.name).trans (if_pos rfl)

end

end MachineState

namespace Machine

variable {state : MachineState} {P Q : Session Channel → Prop}

/-- The sessions of a device are found at once if they are cached. -/
theorem on_sessionsOf_of_cached {sender : String} {sessions : List (Session (Slot Channel))}
    (h : state.machine.sessions.find? sender = some sessions) :
    InPlace.on (sessionsOf sender) state = (.ok sessions, state) := by
  unfold sessionsOf
  rw [InPlace.on_bind, InPlace.on_get]
  simp only [h]
  rfl

/-- Otherwise they are loaded. -/
theorem on_sessionsOf_of_not_cached {sender : String} (h : state.machine.sessions.find? sender = none) :
    InPlace.on (sessionsOf sender) state =
      match state.backend.loadSessions sender with
      | .error e => (.error e, state)
      | .ok found => (.ok (share state.channels (found.getD [])).1, state.withLoaded sender (found.getD [])) := by
  unfold sessionsOf
  rw [InPlace.on_bind, InPlace.on_get]
  simp only [h]
  rw [InPlace.on_bind, Task.on_ofExcept]
  cases state.backend.loadSessions sender <;> rfl

/-- The sessions of a device are looked up: they are cached already, or it fails and nothing is changed, or they
are loaded. -/
theorem sessionsOf_cases (state : MachineState) (sender : String) :
    (∃ sessions, state.machine.sessions.find? sender = some sessions ∧
      InPlace.on (sessionsOf sender) state = (.ok sessions, state)) ∨
      (∃ e, InPlace.on (sessionsOf sender) state = (.error e, state)) ∨
        ∃ found, state.backend.store.loadSessions sender = .ok found ∧
          InPlace.on (sessionsOf sender) state =
            (.ok (share state.channels (found.getD [])).1, state.withLoaded sender (found.getD [])) := by
  cases hcached : state.machine.sessions.find? sender with
  | some sessions => exact Or.inl ⟨sessions, rfl, on_sessionsOf_of_cached hcached⟩
  | none =>
    have hrun := on_sessionsOf_of_not_cached hcached
    cases hload : state.backend.loadSessions sender with
    | error e =>
      rw [hload] at hrun
      exact Or.inr (Or.inl ⟨e, hrun⟩)
    | ok found =>
      rw [hload] at hrun
      exact Or.inr (Or.inr ⟨found, Backend.eq_ok_of_attempt hload, hrun⟩)

end Machine

namespace MachineState

variable {state : MachineState} {P Q : Session Channel → Prop}

/-- What is left after the sessions of a device were looked up. -/
def lookedUp (state : MachineState) (sender : String) : MachineState :=
  (InPlace.on (Machine.sessionsOf sender) state).2

/-- To look up sessions changes nothing but what is cached and shared. -/
theorem lookedUp_eq (state : MachineState) (sender : String) :
    state.lookedUp sender =
      { state with channels := (state.lookedUp sender).channels, machine := (state.lookedUp sender).machine } := by
  unfold lookedUp
  obtain ⟨_, -, hrun⟩ | ⟨_, hrun⟩ | ⟨_, -, hrun⟩ := Machine.sessionsOf_cases state sender <;> rw [hrun]
  rfl

theorem backend_lookedUp (state : MachineState) (sender : String) :
    (state.lookedUp sender).backend = state.backend := by
  rw [lookedUp_eq]

theorem now_lookedUp (state : MachineState) (sender : String) : (state.lookedUp sender).now = state.now := by
  rw [lookedUp_eq]

/-- Sessions that were found are cached. -/
theorem find?_lookedUp {sender : String} {sessions : List (Session (Slot Channel))} {after : MachineState}
    (h : InPlace.on (Machine.sessionsOf sender) state = (.ok sessions, after)) :
    after = state.lookedUp sender ∧ after.machine.sessions.find? sender = some sessions := by
  refine ⟨(congrArg Prod.snd h).symm, ?_⟩
  obtain ⟨_, hcached, hrun⟩ | ⟨_, hrun⟩ | ⟨_, -, hrun⟩ := Machine.sessionsOf_cases state sender <;>
    cases hrun.symm.trans h
  · exact hcached
  · exact Dict.find?_insert_self _ _ _

/-- Sessions that are looked up are in order if those are that are in the store. -/
theorem Caches.lookedUp (h : state.Caches P) (hkeeps : state.backend.store.Keeps Q)
    (hrestores : ∀ session restored : Session Channel, Q session → session.Restores restored → P restored)
    (sender : String) : (state.lookedUp sender).Caches P := by
  unfold MachineState.lookedUp
  obtain ⟨_, -, hrun⟩ | ⟨_, hrun⟩ | ⟨found, hload, hrun⟩ := Machine.sessionsOf_cases state sender <;> rw [hrun]
  · exact h
  · exact h
  · obtain ⟨hids, hmembers⟩ := hkeeps.loadSessions hload
    refine h.withLoaded (fun restored hmember => ?_) (hids ▸ Dict.nodup_keys _)
    obtain ⟨hsender, session, -, hkept, hrestored⟩ := hmembers restored hmember
    exact ⟨hrestored.named, hsender, hrestores session restored hkept hrestored⟩

end MachineState

namespace Machine

variable {state : MachineState} {P Q : Session Channel → Prop}

omit [Suite] in
/-- The session that was used last stands at its place. -/
theorem getElem?_of_lastUsed? {σ : Type} {sessions : List (Session σ)} {place : ℕ} {session : Session σ}
    (h : lastUsed? sessions = some (place, session)) : sessions[place]? = some session := by
  induction sessions generalizing place with
  | nil => cases h
  | cons first rest ih =>
    unfold lastUsed? at h
    cases hrest : lastUsed? rest with
    | none =>
      rw [hrest] at h
      cases h
      rfl
    | some found =>
      rw [hrest] at h
      dsimp only at h
      split at h
      · cases h
        rfl
      · cases h
        exact ih hrest

/-- A session that has opened a message stands at its place, and it decrypts the message. -/
theorem getElem?_of_firstOpened? {message : OlmMessage} {sessions : List (Session (Slot Channel))} {opened : Opened}
    (h : firstOpened? state message sessions = some opened) :
    ∃ session, sessions[opened.place]? = some session ∧ opened.slot = session.state ∧
      (state.view session).decrypt message state.now = .ok (opened.plain, opened.used) := by
  obtain ⟨⟨session, place⟩, hmember, hopened⟩ := List.exists_of_findSome?_eq_some h
  dsimp only at hopened
  cases hdecrypt : (state.view session).decrypt message state.now with
  | error e =>
    rw [hdecrypt] at hopened
    cases hopened
  | ok result =>
    obtain ⟨plain, used⟩ := result
    rw [hdecrypt] at hopened
    cases hopened
    exact ⟨session, List.mk_mem_zipIdx_iff_getElem?.mp hmember, rfl, hdecrypt⟩

/-- How a session was used in a call. -/
structure SessionUse (α : Type) where
  /-- The state in which it was used. -/
  state : MachineState
  /-- Its place in the list of the device. -/
  place : ℕ
  /-- Where its channel is shared. -/
  slot : Slot Channel
  /-- The session before and after its use. -/
  before : Session Channel
  used : Session Channel
  /-- What came of it. -/
  result : α

/-- How the call ends: the session was used at its place, and it is saved unless the store fails. -/
def SessionUse.finish {α : Type} (use : SessionUse α) (sender : String) : Except SessionError α × MachineState :=
  match use.state.backend.outage .saveChanges with
  | some message => (.error (.store (.backend message)), use.state.putUsed sender use.place use.slot use.used)
  | none => (.ok use.result, use.state.afterUse sender use.place use.slot use.used)

/-- A use of a session that is cached for a device when its sessions have been looked up: the session keeps its
name and the keys of its channel. -/
structure SessionUse.Sound {α : Type} (use : SessionUse α) (state : MachineState) (sender : String) : Prop where
  looked : ∃ entropy, use.state = { state.lookedUp sender with entropy }
  cached : ∃ session, use.state.cachedAt? sender use.place = some session ∧ use.slot = session.state ∧
    use.before = use.state.view session
  name_eq : use.used.name = use.before.name
  keys_eq : use.used.state.keys = use.before.state.keys

omit [Suite] in
/-- The call fails in the store, or the session is saved. -/
theorem SessionUse.finish_cases {α : Type} (use : SessionUse α) (sender : String) :
    (∃ message, use.state.backend.outage .saveChanges = some message ∧
      use.finish sender =
        (.error (.store (.backend message)), use.state.putUsed sender use.place use.slot use.used)) ∨
      use.finish sender = (.ok use.result, use.state.afterUse sender use.place use.slot use.used) := by
  unfold finish
  cases use.state.backend.outage .saveChanges with
  | some message => exact Or.inl ⟨message, rfl, rfl⟩
  | none => exact Or.inr rfl

namespace SessionUse.Sound

variable {α : Type} {use : SessionUse α} {sender : String}

/-- The sessions stand in the cache as they were looked up. -/
theorem caches (h : use.Sound state sender) (hlooked : (state.lookedUp sender).Caches P) : use.state.Caches P := by
  obtain ⟨entropy, hstate⟩ := h.looked
  rw [hstate]
  exact ⟨hlooked.held, hlooked.slots, hlooked.kept, hlooked.ids⟩

/-- The store is the one from before the call. -/
theorem backend_eq (h : use.Sound state sender) : use.state.backend = state.backend := by
  obtain ⟨entropy, hstate⟩ := h.looked
  rw [hstate]
  exact state.backend_lookedUp sender

/-- Before its use, the session is called after its channel and has what all sessions have that were looked
up. -/
theorem kept (h : use.Sound state sender) (hlooked : (state.lookedUp sender).Caches P) :
    use.before.Named ∧ use.before.name.sender = sender ∧ P use.before := by
  obtain ⟨session, hcached, -, hbefore⟩ := h.cached
  rw [hbefore]
  exact (h.caches hlooked).kept _ _ _ (MachineState.viewAt?_of_cachedAt? hcached)

/-- It is still called after its channel then. -/
theorem named (h : use.Sound state sender) (hlooked : (state.lookedUp sender).Caches P) : use.used.Named := by
  have hid : use.used.sessionId = use.before.sessionId := congrArg SessionName.sessionId h.name_eq
  exact hid.trans ((h.kept hlooked).1.trans (congrArg Olm.SessionKeys.sessionId h.keys_eq).symm)

/-- The sessions after the call: the one that was used has to have the property. -/
theorem caches_putUsed (h : use.Sound state sender) (hlooked : (state.lookedUp sender).Caches P) (hused : Q use.used)
    (hothers : ∀ other : Session Channel, other.name ≠ use.used.name → P other → Q other) :
    (use.state.putUsed sender use.place use.slot use.used).Caches Q := by
  obtain ⟨session, hcached, hslot, hbefore⟩ := h.cached
  have hname : use.used.name = session.name := h.name_eq.trans (congrArg Session.name hbefore)
  rw [hslot]
  exact (h.caches hlooked).putUsed hcached hname (h.named hlooked) hused hothers

/-- It makes no difference to them whether the session was saved. -/
theorem caches_afterUse (h : use.Sound state sender) (hlooked : (state.lookedUp sender).Caches P) (hused : Q use.used)
    (hothers : ∀ other : Session Channel, other.name ≠ use.used.name → P other → Q other) :
    (use.state.afterUse sender use.place use.slot use.used).Caches Q := by
  obtain ⟨hheld, hslots, hkept, hids⟩ := h.caches_putUsed hlooked hused hothers
  exact ⟨hheld, hslots, hkept, hids⟩

/-- A call that succeeds has persisted its session. -/
theorem persisted_of_finish (h : use.Sound state sender) (hlooked : (state.lookedUp sender).Caches P) {result : α}
    {after : MachineState} (hfinish : use.finish sender = (.ok result, after)) :
    use.result = result ∧ after.Persisted sender use.place use.slot use.used := by
  obtain ⟨session, hcached, hslot, -⟩ := h.cached
  rcases use.finish_cases sender with ⟨_, -, hfails⟩ | hsaved
  · cases hfails.symm.trans hfinish
  · cases hsaved.symm.trans hfinish
    rw [hslot]
    exact ⟨rfl, (h.caches hlooked).persisted hcached⟩

end SessionUse.Sound

/-- A session that was used is saved at the end of the call. -/
theorem on_save_used {α : Type} {use : SessionUse α} {sender : String} (hsound : use.Sound state sender)
    (hlooked : (state.lookedUp sender).Caches P) :
    InPlace.on (do
      (save { sessions := [use.used.withState use.slot] }).wrap SessionError.store
      pure use.result) (use.state.putUsed sender use.place use.slot use.used) = use.finish sender := by
  obtain ⟨session, hcached, hslot, hbefore⟩ := hsound.cached
  have hname : use.used.name = session.name := hsound.name_eq.trans (congrArg Session.name hbefore)
  have houtage : (use.state.putUsed sender use.place use.slot use.used).backend.outage = use.state.backend.outage := rfl
  rw [InPlace.on_bind, Task.on_wrap, on_save, houtage, hslot, (hsound.caches hlooked).afterSave_putUsed hcached hname,
    ← hslot]
  unfold SessionUse.finish
  cases use.state.backend.outage .saveChanges <;> rfl

/-- How a session is used to encrypt a text for a device, if there is one that does. -/
def encryption? (senderKey : Curve25519Key) (plain : Bytes) (state : MachineState) :
    Option (SessionUse OlmMessage) :=
  match InPlace.on (sessionsOf senderKey.toBase64) state with
  | (.ok sessions, loaded) => do
    let (place, session) ← lastUsed? sessions
    let before := loaded.view session
    let (message, used, entropy) ← (before.encrypt plain loaded.now loaded.entropy).toOption
    some ⟨{ loaded with entropy }, place, session.state, before, used, message⟩
  | (.error _, _) => none

/-- How a session is used to decrypt a message from a device, if there is one that does. -/
def decryption? (senderKey : Curve25519Key) (message : OlmMessage) (state : MachineState) :
    Option (SessionUse Bytes) :=
  match InPlace.on (sessionsOf senderKey.toBase64) state with
  | (.ok sessions, loaded) => do
    let opened ← firstOpened? loaded message sessions
    let session ← sessions[opened.place]?
    some ⟨loaded, opened.place, opened.slot, loaded.view session, opened.used, opened.plain⟩
  | (.error _, _) => none

/-- A session that encrypts keeps its name and the keys of its channel. -/
theorem eq_of_encrypt {session used : Session Channel} {plain : Bytes} {now : Clock} {entropy left : Entropy}
    {message : OlmMessage} (h : session.encrypt plain now entropy = .ok (message, used, left)) :
    used.name = session.name ∧ used.state.keys = session.state.keys ∧
      session.state.ratchet.encrypt plain entropy = .ok (message, used.state.ratchet, left) := by
  obtain ⟨⟨message', channel, left'⟩, hchannel, hused⟩ := bind_eq_ok_iff.mp h
  obtain ⟨⟨message'', ratchet, left''⟩, hratchet, hchannel⟩ := bind_eq_ok_iff.mp hchannel
  cases hchannel
  cases hused
  exact ⟨rfl, rfl, hratchet⟩

/-- And so does one that decrypts. -/
theorem eq_of_decrypt {session used : Session Channel} {plain : Bytes} {now : Clock} {message : OlmMessage}
    (h : session.decrypt message now = .ok (plain, used)) :
    used.name = session.name ∧ used.state.keys = session.state.keys ∧
      session.state.ratchet.decrypt message = .ok (plain, used.state.ratchet) := by
  obtain ⟨⟨plain', channel⟩, hchannel, hused⟩ := bind_eq_ok_iff.mp h
  obtain ⟨⟨plain'', ratchet⟩, hratchet, hchannel⟩ := bind_eq_ok_iff.mp hchannel
  cases hchannel
  cases hused
  exact ⟨rfl, rfl, hratchet⟩

/-- A text cannot be encrypted, or a session encrypts it and is saved. -/
theorem encrypt_cases {senderKey : Curve25519Key} (hlooked : (state.lookedUp senderKey.toBase64).Caches P)
    (plain : Bytes) :
    (encryption? senderKey plain state = none ∧
      ∃ e, InPlace.on (encrypt senderKey plain) state = (.error e, state.lookedUp senderKey.toBase64)) ∨
      ∃ use, encryption? senderKey plain state = some use ∧
        InPlace.on (encrypt senderKey plain) state = use.finish senderKey.toBase64 ∧
        use.Sound state senderKey.toBase64 ∧ ∃ entropy left,
          use.before.state.ratchet.encrypt plain entropy = .ok (use.result, use.used.state.ratchet, left) := by
  have hrun : InPlace.on (encrypt senderKey plain) state = _ := InPlace.on_bind _ _ _
  rw [Task.on_wrap] at hrun
  unfold encryption?
  rcases hlookup : InPlace.on (sessionsOf senderKey.toBase64) state with ⟨e | sessions, loaded⟩
  · rw [hlookup] at hrun
    exact Or.inl ⟨rfl, _, hrun.trans (congrArg (Prod.mk _) (congrArg Prod.snd hlookup).symm)⟩
  obtain ⟨hloaded, hlist⟩ := MachineState.find?_lookedUp hlookup
  rw [hlookup] at hrun
  dsimp only [Except.mapError] at hrun ⊢
  cases hlast : lastUsed? sessions with
  | none =>
    simp only [hlast] at hrun
    exact Or.inl ⟨rfl, _, hloaded ▸ hrun⟩
  | some found =>
    obtain ⟨place, session⟩ := found
    simp only [hlast] at hrun
    rw [InPlace.on_bind, InPlace.on_get] at hrun
    dsimp only at hrun
    rw [InPlace.on_bind, Task.on_ofExcept] at hrun
    cases hencrypt : (loaded.view session).encrypt plain loaded.now loaded.entropy with
    | error e =>
      rw [hencrypt] at hrun
      refine Or.inl ⟨?_, _, hloaded ▸ hrun⟩
      simp [hencrypt, Except.toOption]
    | ok result =>
      obtain ⟨message, used, entropy⟩ := result
      obtain ⟨hname, hkeys, hratchet⟩ := eq_of_encrypt hencrypt
      rw [hencrypt] at hrun
      dsimp only [Except.mapError] at hrun
      rw [InPlace.on_bind, Task.on_set] at hrun
      dsimp only at hrun
      let use : SessionUse OlmMessage :=
        ⟨{ loaded with entropy }, place, session.state, loaded.view session, used, message⟩
      have hcached : use.state.cachedAt? senderKey.toBase64 place = some session :=
        Option.bind_eq_some_iff.mpr ⟨sessions, hlist, getElem?_of_lastUsed? hlast⟩
      have hsound : use.Sound state senderKey.toBase64 :=
        ⟨⟨entropy, hloaded ▸ rfl⟩, ⟨session, hcached, rfl, rfl⟩, hname, hkeys⟩
      have hfinish := on_save_used hsound hlooked
      dsimp only [use] at hfinish
      refine Or.inr ⟨use, ?_, hrun.trans hfinish, hsound, loaded.entropy, entropy, hratchet⟩
      simp [hencrypt, Except.toOption, use]

/-- A message cannot be decrypted, or a session decrypts it and is saved. -/
theorem decrypt_cases {senderKey : Curve25519Key} (hlooked : (state.lookedUp senderKey.toBase64).Caches P)
    (message : OlmMessage) :
    (decryption? senderKey message state = none ∧
      ∃ e, InPlace.on (decrypt senderKey message) state = (.error e, state.lookedUp senderKey.toBase64)) ∨
      ∃ use, decryption? senderKey message state = some use ∧
        InPlace.on (decrypt senderKey message) state = use.finish senderKey.toBase64 ∧
        use.Sound state senderKey.toBase64 ∧
        use.before.state.ratchet.decrypt message = .ok (use.result, use.used.state.ratchet) := by
  have hrun : InPlace.on (decrypt senderKey message) state = _ := InPlace.on_bind _ _ _
  rw [Task.on_wrap] at hrun
  unfold decryption?
  rcases hlookup : InPlace.on (sessionsOf senderKey.toBase64) state with ⟨e | sessions, loaded⟩
  · rw [hlookup] at hrun
    exact Or.inl ⟨rfl, _, hrun.trans (congrArg (Prod.mk _) (congrArg Prod.snd hlookup).symm)⟩
  obtain ⟨hloaded, hlist⟩ := MachineState.find?_lookedUp hlookup
  rw [hlookup] at hrun
  dsimp only [Except.mapError] at hrun ⊢
  rw [InPlace.on_bind, InPlace.on_get] at hrun
  dsimp only at hrun
  cases hopened : firstOpened? loaded message sessions with
  | none =>
    simp only [hopened] at hrun
    exact Or.inl ⟨rfl, _, hloaded ▸ hrun⟩
  | some opened =>
    obtain ⟨session, hplace, hslot, hdecrypt⟩ := getElem?_of_firstOpened? hopened
    obtain ⟨hname, hkeys, hratchet⟩ := eq_of_decrypt hdecrypt
    simp only [hopened] at hrun
    rw [InPlace.on_bind, Task.on_set] at hrun
    dsimp only at hrun
    let use : SessionUse Bytes :=
      ⟨loaded, opened.place, opened.slot, loaded.view session, opened.used, opened.plain⟩
    have hcached : use.state.cachedAt? senderKey.toBase64 opened.place = some session :=
      Option.bind_eq_some_iff.mpr ⟨sessions, hlist, hplace⟩
    have hsound : use.Sound state senderKey.toBase64 :=
      ⟨⟨loaded.entropy, hloaded ▸ rfl⟩, ⟨session, hcached, hslot, rfl⟩, hname, hkeys⟩
    have hfinish := on_save_used hsound hlooked
    dsimp only [use] at hfinish
    refine Or.inr ⟨use, ?_, hrun.trans hfinish, hsound, hratchet⟩
    simp [hplace, use]

end Machine

end RoomCrypt
