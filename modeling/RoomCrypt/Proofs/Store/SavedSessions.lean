import RoomCrypt.Proofs.Olm.Loading
import RoomCrypt.Proofs.Store.DeviceSessions

/-!
# What is loaded of the sessions that were saved

A store saves sessions whatever their bounds are, and it loads all sessions of a sender together, under its own
bounds. So the sessions of a sender come back under the bounds of the store, with the records that were saved,
if all of them keep to these bounds. If one of them does not, none of them comes back.
-/

namespace RoomCrypt.Store.MemoryStore

open Olm (Session Channel RatchetConfig)

variable [Suite]

/-- The store that some saves make of an empty one. -/
def ofSaves (config : RatchetConfig) (saves : List (Changes Channel)) : MemoryStore :=
  saves.foldl save { config }

/-- The session that was saved last under a name. -/
def lastSaved? (name : SessionName) (saves : List (Changes Channel)) : Option (Session Channel) :=
  (saves.flatMap (·.sessions)).findRev? fun session => session.name = name

section

omit [Suite]

/-- It has the name, and it was saved. -/
theorem mem_of_lastSaved? {name : SessionName} {saves : List (Changes Channel)} {session : Session Channel}
    (h : lastSaved? name saves = some session) :
    session.name = name ∧ ∃ changes ∈ saves, session ∈ changes.sessions := by
  unfold lastSaved? at h
  rw [List.findRev?_eq_find?_reverse] at h
  have hname := List.find?_some h
  exact ⟨of_decide_eq_true hname, List.mem_flatMap.mp (List.mem_reverse.mp (List.mem_of_find?_eq_some h))⟩

/-- What holds of all sessions that were saved holds of the last ones. -/
theorem of_lastSaved? {P : Session Channel → Prop} {name : SessionName} {saves : List (Changes Channel)}
    (hsaves : ∀ changes ∈ saves, ∀ session ∈ changes.sessions, P session) {session : Session Channel}
    (h : lastSaved? name saves = some session) : P session := by
  obtain ⟨-, changes, hchanges, hsaved⟩ := mem_of_lastSaved? h
  exact hsaves changes hchanges session hsaved

/-- Of sessions that are saved one after the other, the last one of a name is kept. -/
theorem sessionText?_foldl (store : MemoryStore) (sessions : List (Session Channel)) (name : SessionName) :
    (sessions.foldl saveSession store).sessionText? name =
      ((sessions.findRev? fun session => session.name = name).map sessionText).or (store.sessionText? name) := by
  induction sessions generalizing store with
  | nil => rfl
  | cons session sessions ih =>
    rw [List.foldl_cons, ih, sessionText?_saveSession, List.findRev?]
    cases sessions.findRev? fun session => session.name = name with
    | some last => rfl
    | none =>
      by_cases hname : name = session.name
      · simp [hname]
      · simp [hname, Ne.symm hname]

/-- A part of a state that no step changes is not changed by steps one after the other. -/
theorem view_foldl {σ α τ : Type} (view : σ → τ) (step : σ → α → σ)
    (h : ∀ state item, view (step state item) = view state) (state : σ) (items : List α) :
    view (items.foldl step state) = view state :=
  List.foldlRecOn (motive := fun after => view after = view state) items step rfl
    fun after hafter item _ => (h after item).trans hafter

/-- Of all that is saved at one time, only the sessions with devices count among these. -/
theorem sessions_save (store : MemoryStore) (changes : Changes Channel) :
    (store.save changes).sessions = (changes.sessions.foldl saveSession store).sessions :=
  (view_foldl MemoryStore.sessions saveDevice (fun _ _ => rfl) _ changes.devices).trans
    (view_foldl MemoryStore.sessions saveRoomSession (fun _ _ => rfl) _ changes.roomSessions)

/-- The bounds of a store do not change. -/
theorem config_ofSaves (config : RatchetConfig) (saves : List (Changes Channel)) :
    (ofSaves config saves).config = config := by
  refine view_foldl MemoryStore.config save (fun store changes => ?_) _ saves
  have hdevices := view_foldl MemoryStore.config saveDevice (fun _ _ => rfl)
  have hrooms := view_foldl MemoryStore.config saveRoomSession (fun _ _ => rfl)
  have hsessions := view_foldl MemoryStore.config saveSession (fun _ _ => rfl)
  exact (hdevices _ changes.devices).trans ((hrooms _ changes.roomSessions).trans (hsessions _ changes.sessions))

/-- So the text under a name is that of the session that was saved last. -/
theorem sessionText?_ofSaves (config : RatchetConfig) (saves : List (Changes Channel)) (name : SessionName) :
    (ofSaves config saves).sessionText? name = (lastSaved? name saves).map sessionText := by
  have hfold (store : MemoryStore) : (saves.foldl save store).sessionText? name =
      ((lastSaved? name saves).map sessionText).or (store.sessionText? name) := by
    induction saves generalizing store with
    | nil => rfl
    | cons changes saves ih =>
      have hsave : (store.save changes).sessionText? name =
          (changes.sessions.foldl saveSession store).sessionText? name := by
        unfold sessionText?
        rw [sessions_save]
      rw [List.foldl_cons, ih, hsave, sessionText?_foldl]
      unfold lastSaved?
      rw [List.flatMap_cons, List.findRev?_eq_find?_reverse, List.findRev?_eq_find?_reverse,
        List.findRev?_eq_find?_reverse, List.reverse_append, List.find?_append, Option.map_or, Option.or_assoc]
  exact (hfold _).trans (Option.or_none)

/-- The texts of a sender are those of the sessions that were saved last, one for each identifier. -/
theorem exists_sessions (config : RatchetConfig) (saves : List (Changes Channel)) (sender : String) :
    ∃ sessions : List (Session Channel),
      (((ofSaves config saves).sessions.find? sender).getD .empty).values = sessions.map sessionText ∧
        (sessions.map (·.sessionId)).Nodup ∧
        ∀ session, session ∈ sessions ↔ ∃ sessionId, lastSaved? ⟨sender, sessionId⟩ saves = some session := by
  obtain ⟨texts, htexts⟩ : ∃ texts, texts = ((ofSaves config saves).sessions.find? sender).getD .empty := ⟨_, rfl⟩
  rw [← htexts]
  have htext (sessionId : String) :
      texts.find? sessionId = (lastSaved? ⟨sender, sessionId⟩ saves).map sessionText := by
    rw [← sessionText?_ofSaves config, htexts, Dict.find?_getD_empty]
    rfl
  have hentry {entry : String × String} (h : entry ∈ texts.entries) :
      ∃ session, lastSaved? ⟨sender, entry.1⟩ saves = some session ∧ sessionText session = entry.2 := by
    have hfound := Dict.mem_entries.mp h
    rw [htext] at hfound
    exact Option.map_eq_some_iff.mp hfound
  refine ⟨texts.entries.filterMap fun entry => lastSaved? ⟨sender, entry.1⟩ saves, ?_, ?_, fun session => ?_⟩
  · rw [List.map_filterMap, List.filterMap_congr (g := fun entry => some entry.2) fun entry h => ?_]
    · exact (congrFun List.filterMap_eq_map texts.entries).symm
    · obtain ⟨session, hlast, htext⟩ := hentry h
      rw [hlast, Option.map_some, htext]
  · rw [List.map_filterMap, List.filterMap_congr (g := fun entry => some entry.1) fun entry h => ?_]
    · rw [show (fun entry : String × String => some entry.1) = some ∘ Prod.fst from rfl, List.filterMap_eq_map]
      exact texts.nodup_keys
    · obtain ⟨session, hlast, -⟩ := hentry h
      rw [hlast, Option.map_some]
      exact congrArg (fun name => some name.sessionId) (mem_of_lastSaved? hlast).1
  · rw [List.mem_filterMap]
    constructor
    · rintro ⟨entry, -, hlast⟩
      exact ⟨entry.1, hlast⟩
    · rintro ⟨sessionId, hlast⟩
      refine ⟨(sessionId, sessionText session), Dict.mem_entries.mpr ?_, hlast⟩
      rw [htext, hlast, Option.map_some]

end

/-- Sessions that came about in some way are loaded together under the bounds of the store, if all of them keep to
these, and otherwise none of them is. -/
theorem loadSessions_of_values {store : MemoryStore} {sender : String} {sessions : List (Session Channel)}
    (hvalues : ((store.sessions.find? sender).getD .empty).values = sessions.map sessionText)
    (hsessions : ∀ session ∈ sessions, session.Arises ∧ session.state.ratchet.Countable) :
    (store.loadSessions sender).map (·.getD []) =
      if ∀ session ∈ sessions, session.state.ratchet.FitsIn store.config
      then .ok (sessions.map (·.loadedUnder store.config))
      else .error (.pickle (.malformed .tooManyElements)) := by
  cases htexts : store.sessions.find? sender with
  | none =>
    rw [htexts] at hvalues
    obtain rfl : sessions = [] := List.map_eq_nil_iff.mp hvalues.symm
    unfold loadSessions
    rw [htexts]
    rfl
  | some texts =>
    rw [htexts] at hvalues
    have htexts' : (store.sessions.find? sender).map Dict.values = some (sessions.map sessionText) := by
      rw [htexts]
      exact congrArg some hvalues
    have hload : ∀ session ∈ sessions, (Session.ofPickle? session.pickle store.config).mapError StoreError.pickle =
        if session.state.ratchet.FitsIn store.config then .ok (session.loadedUnder store.config)
        else .error (.pickle (.malformed .tooManyElements)) := by
      intro session hmember
      obtain ⟨harises, hcount⟩ := hsessions session hmember
      obtain ⟨hchannel, hid⟩ := harises.channel
      rw [Session.ofPickle?_pickle_eq hchannel.sound hcount hid]
      split <;> rfl
    rw [loadSessions_eq htexts', mapM_eq_ite hload]
    split <;> rfl

/-- Whatever sessions were saved, if each of them came about in some way and can be counted: the sessions of a
sender are loaded together, for each identifier the one that was saved last. If all of them keep to the bounds of
the store, each is as it was saved, under these bounds and with the same record. If one of them does not, none of
them is loaded. -/
theorem loadSessions_ofSaves (config : RatchetConfig) {saves : List (Changes Channel)}
    (hsaves : ∀ changes ∈ saves, ∀ session ∈ changes.sessions, session.Arises ∧ session.state.ratchet.Countable)
    (sender : String) :
    ∃ sessions : List (Session Channel), (sessions.map (·.sessionId)).Nodup ∧
      (∀ session, session ∈ sessions ↔ ∃ sessionId, lastSaved? ⟨sender, sessionId⟩ saves = some session) ∧
      ((ofSaves config saves).loadSessions sender).map (·.getD []) =
        (if ∀ session ∈ sessions, session.state.ratchet.FitsIn config then .ok (sessions.map (·.loadedUnder config))
        else .error (.pickle (.malformed .tooManyElements))) ∧
      ∀ session ∈ sessions, session.state.ratchet.FitsIn config →
        (session.loadedUnder config).pickle = session.pickle := by
  obtain ⟨sessions, hvalues, hnodup, hmem⟩ := exists_sessions config saves sender
  have hsessions : ∀ session ∈ sessions, session.Arises ∧ session.state.ratchet.Countable := by
    intro session hmember
    obtain ⟨sessionId, hlast⟩ := (hmem session).mp hmember
    exact of_lastSaved? hsaves hlast
  have hload := loadSessions_of_values hvalues hsessions
  rw [config_ofSaves] at hload
  refine ⟨sessions, hnodup, hmem, hload, fun session hmember hfits => ?_⟩
  obtain ⟨harises, hcount⟩ := hsessions session hmember
  exact Session.pickle_loadedUnder harises.channel.1.sound hcount hfits

end RoomCrypt.Store.MemoryStore

namespace RoomCrypt

open Olm Store MemoryStore
open scoped Suite.Evaluation

/-- A session whose channel has two skipped keys. -/
def skippingSession : Session Channel :=
  .ofChannel boundsKey answeredChannel default

/-- Another session with the same device, which has none. -/
def plainSession : Session Channel :=
  .ofChannel boundsKey (ChannelOrigin.inbound ⟨boundsKey, boundsKey, ⟨.ofNatLE 32 6⟩⟩ [7] boundsKey).channel default

/-- The two are saved one after the other. -/
def mixedSaves : List (Changes Channel) :=
  [{ sessions := [skippingSession] }, { sessions := [plainSession] }]

theorem arises_mixedSaves : ∀ changes ∈ mixedSaves, ∀ session ∈ changes.sessions,
    session.Arises ∧ session.state.ratchet.Countable := by
  have hskipping : skippingSession.Arises :=
    .made boundsKey (.used (.encrypt [2] default) (.used (.decrypt boundsFirst) (.begun _))) default
  have hplain : plainSession.Arises := .made boundsKey (.begun _) default
  have hcount {session : Session Channel} (h : session.state.ratchet.FitsIn {}) : session.state.ratchet.Countable :=
    ⟨Nat.lt_of_le_of_lt h.1 (by decide), Nat.lt_of_le_of_lt h.2 (by decide)⟩
  simp only [mixedSaves, List.forall_mem_cons]
  exact ⟨⟨⟨hskipping, hcount (by decide +kernel)⟩, by simp⟩, ⟨⟨hplain, hcount (by decide +kernel)⟩, by simp⟩, by simp⟩

/-- A store with the usual bounds loads both of them. -/
theorem loadSessions_ofSaves_mixed :
    (∀ changes ∈ mixedSaves, ∀ session ∈ changes.sessions, session.Arises ∧ session.state.ratchet.Countable) ∧
      ∃ sessions : List (Session Channel), skippingSession ∈ sessions ∧ plainSession ∈ sessions ∧
        ((ofSaves {} mixedSaves).loadSessions boundsKey.toBase64).map (·.getD []) =
          .ok (sessions.map (·.loadedUnder {})) := by
  obtain ⟨sessions, -, hmem, hload, -⟩ := loadSessions_ofSaves {} arises_mixedSaves boundsKey.toBase64
  have hfits : ∀ session ∈ sessions, session.state.ratchet.FitsIn {} := by
    intro session hmember
    obtain ⟨sessionId, hlast⟩ := (hmem session).mp hmember
    exact of_lastSaved? (P := fun session => session.state.ratchet.FitsIn {}) (by decide +kernel) hlast
  rw [if_pos hfits] at hload
  have hskipping : lastSaved? skippingSession.name mixedSaves = some skippingSession := by decide +kernel
  have hplain : lastSaved? plainSession.name mixedSaves = some plainSession := by decide +kernel
  exact ⟨arises_mixedSaves, sessions, (hmem _).mpr ⟨_, hskipping⟩, (hmem _).mpr ⟨_, hplain⟩, hload⟩

/-- A store that allows one skipped key saves the two sessions and loads neither, not even the one that keeps to
its bounds. -/
theorem saved_sessions_not_loaded :
    (∀ changes ∈ mixedSaves, ∀ session ∈ changes.sessions, session.Arises ∧ session.state.ratchet.Countable) ∧
      lastSaved? skippingSession.name mixedSaves = some skippingSession ∧
      lastSaved? plainSession.name mixedSaves = some plainSession ∧
      plainSession.state.ratchet.FitsIn { maxSkippedKeys := 1 } ∧
      (ofSaves { maxSkippedKeys := 1 } mixedSaves).loadSessions boundsKey.toBase64 =
        .error (.pickle (.malformed .tooManyElements)) := by
  have hskipping : lastSaved? skippingSession.name mixedSaves = some skippingSession := by decide +kernel
  obtain ⟨sessions, hvalues, -, hmem⟩ := exists_sessions { maxSkippedKeys := 1 } mixedSaves boundsKey.toBase64
  have hsessions : ∀ session ∈ sessions, session.Arises ∧ session.state.ratchet.Countable := by
    intro session hmember
    obtain ⟨sessionId, hlast⟩ := (hmem session).mp hmember
    exact of_lastSaved? arises_mixedSaves hlast
  have hload := loadSessions_of_values hvalues hsessions
  rw [if_neg fun hall => ?_] at hload
  · refine ⟨arises_mixedSaves, hskipping, by decide +kernel, by decide +kernel, ?_⟩
    cases hfound : (ofSaves { maxSkippedKeys := 1 } mixedSaves).loadSessions boundsKey.toBase64 with
    | error e =>
      rw [hfound] at hload
      exact congrArg Except.error (Except.error.inj hload)
    | ok found =>
      rw [hfound] at hload
      cases hload
  · have hfits := hall skippingSession ((hmem _).mpr ⟨_, hskipping⟩)
    rw [config_ofSaves] at hfits
    exact absurd hfits (by decide +kernel)

end RoomCrypt
