import Mathlib.Data.Finset.Card
import Mathlib.Data.List.Induction
import RoomCrypt.Dict.Counts
import RoomCrypt.Proofs.Machine.RoomSessions
import RoomCrypt.Proofs.Megolm.Records
import RoomCrypt.Proofs.Store.SavedSessions

/-!
# What is loaded of the room sessions that were saved

A store keeps the text of a room session under its name until another one of that name is saved. So a session is
loaded as it was saved last, but for the parts of milliseconds of its limit of time, and there are as many sessions as
names under which one was saved.
-/

namespace RoomCrypt.Store.MemoryStore

open Megolm (InboundSession Receiver)
open Olm (Channel RatchetConfig)

/-- The texts of a store are counted in its map. -/
theorem roomSessionCount_eq (store : MemoryStore) : store.roomSessionCount = store.roomSessions.count₂ := by
  unfold roomSessionCount Dict.count₂ Dict.total Dict.count Dict.total
  simp only [List.length_flatMap, List.map_const', List.sum_replicate_nat, Nat.mul_one]

/-- A session that is saved counts unless there was one of its name. -/
theorem roomSessionCount_saveRoomSession (store : MemoryStore) (session : InboundSession Receiver) :
    (store.saveRoomSession session).roomSessionCount + (if (store.roomText? session.name).isSome then 1 else 0) =
      store.roomSessionCount + 1 := by
  rw [roomSessionCount_eq, roomSessionCount_eq]
  exact Dict.count₂_insert_nested₂ store.roomSessions _ _ _ (roomSessionText session)

/-- What is saved of room sessions depends on nothing else in the store. -/
theorem roomSessions_foldl_congr {store other : MemoryStore} (h : store.roomSessions = other.roomSessions)
    (sessions : List (InboundSession Receiver)) :
    (sessions.foldl saveRoomSession store).roomSessions = (sessions.foldl saveRoomSession other).roomSessions := by
  induction sessions generalizing store other with
  | nil => exact h
  | cons session sessions ih =>
    refine ih ?_
    unfold saveRoomSession
    rw [h]

/-- Of all that is saved at one time, only the room sessions count among these. -/
theorem roomSessions_save (store : MemoryStore) (changes : Changes Channel) :
    (store.save changes).roomSessions = (changes.roomSessions.foldl saveRoomSession store).roomSessions :=
  (view_foldl MemoryStore.roomSessions saveDevice (fun _ _ => rfl) _ changes.devices).trans
    (roomSessions_foldl_congr (view_foldl MemoryStore.roomSessions saveSession (fun _ _ => rfl) store changes.sessions)
      changes.roomSessions)

/-- So the room sessions of a store are those that some saves made of an empty one, one after the other. -/
theorem roomSessions_ofSaves (config : RatchetConfig) (saves : List (Changes Channel)) :
    (ofSaves config saves).roomSessions =
      ((saves.flatMap (·.roomSessions)).foldl saveRoomSession { config }).roomSessions := by
  have hfold (store : MemoryStore) : (saves.foldl save store).roomSessions =
      ((saves.flatMap (·.roomSessions)).foldl saveRoomSession store).roomSessions := by
    induction saves generalizing store with
    | nil => rfl
    | cons changes saves ih =>
      rw [List.foldl_cons, ih, List.flatMap_cons, List.foldl_append]
      exact roomSessions_foldl_congr (store.roomSessions_save changes) _
  exact hfold _

/-- There is a text under the names of sessions that were saved, and under no others. -/
theorem isSome_roomText?_foldl (store : MemoryStore) (sessions : List (InboundSession Receiver))
    (name : RoomSessionName) :
    ((sessions.foldl saveRoomSession store).roomText? name).isSome ↔
      name ∈ sessions.map (·.name) ∨ (store.roomText? name).isSome := by
  induction sessions generalizing store with
  | nil => simp
  | cons session sessions ih =>
    rw [List.foldl_cons, ih, roomText?_saveRoomSession, List.map_cons, List.mem_cons]
    by_cases hname : name = session.name
    · simp [hname]
    · simp [hname]

/-- There are as many texts as names under which a session was saved. -/
theorem roomSessionCount_foldl (config : RatchetConfig) (sessions : List (InboundSession Receiver)) :
    (sessions.foldl saveRoomSession { config }).roomSessionCount = (sessions.map (·.name)).toFinset.card := by
  induction sessions using List.reverseRecOn with
  | nil => rfl
  | append_singleton sessions session ih =>
    have hstep := roomSessionCount_saveRoomSession (sessions.foldl saveRoomSession { config }) session
    have hknown : ((sessions.foldl saveRoomSession { config }).roomText? session.name).isSome ↔
        session.name ∈ sessions.map (·.name) :=
      (isSome_roomText?_foldl _ sessions session.name).trans (or_iff_left nofun)
    have hnames : ((sessions ++ [session]).map (·.name)).toFinset =
        insert session.name (sessions.map (·.name)).toFinset := by
      ext other
      simp only [List.map_append, List.map_cons, List.map_nil, List.mem_toFinset, List.mem_append, List.mem_singleton,
        Finset.mem_insert, or_comm]
    rw [List.foldl_append, List.foldl_cons, List.foldl_nil, hnames]
    by_cases hmem : session.name ∈ sessions.map (·.name)
    · rw [if_pos (hknown.mpr hmem), ih] at hstep
      rw [Finset.insert_eq_of_mem (List.mem_toFinset.mpr hmem)]
      exact Nat.add_right_cancel hstep
    · rw [if_neg (mt hknown.mp hmem), ih] at hstep
      rw [Finset.card_insert_of_notMem (mt List.mem_toFinset.mp hmem)]
      exact hstep

variable [Suite]

/-- A room session that has come about in some way and was saved, and after it none of its name, is loaded under its
name as it was, whatever else was saved before, with and after it, and whatever its claimed keys, its forwarding chain,
its limits and its history are: both ratchets, the signing key and its flag, and all that is known of it. Only its
limit of time is rounded down to milliseconds, of which a 64-bit number is the most. And there are as many sessions as
names under which one was saved. -/
theorem saved_room_session_comes_back (config : RatchetConfig) (saves : List (Changes Channel))
    {before after : List (InboundSession Receiver)} {session : InboundSession Receiver}
    (hsaves : saves.flatMap (·.roomSessions) = before ++ session :: after)
    (hlast : ∀ later ∈ after, later.name ≠ session.name) (harises : session.Arises) :
    (∃ loaded, (ofSaves config saves).loadRoomSession session.room session.senderKey session.sessionId =
        .ok (some loaded) ∧ loaded = { session with maxAge := loaded.maxAge } ∧
        loaded.maxAge.map Duration.milliseconds =
          session.maxAge.map (fun age => min age.milliseconds (2 ^ 64 - 1)) ∧
        ∀ age ∈ loaded.maxAge, age.nanoseconds.val % 1000000 = 0) ∧
      (ofSaves config saves).roomSessionCount =
        ((saves.flatMap (·.roomSessions)).map (·.name)).toFinset.card := by
  have htext : (ofSaves config saves).roomText? session.name = some (roomSessionText session) := by
    unfold roomText?
    rw [roomSessions_ofSaves, hsaves, List.foldl_append, List.foldl_cons]
    change roomText? _ _ = _
    rw [roomText?_foldl_of_ne _ hlast, roomText?_saveRoomSession, if_pos rfl]
  have hsound := harises.sound
  have hload : (ofSaves config saves).loadRoomSession session.room session.senderKey session.sessionId =
      .ok (some session.recorded) := by
    refine (loadRoomSession_eq _ session.name).trans ?_
    rw [htext]
    dsimp only
    rw [roomSessionOfText?_roomSessionText,
      InboundSession.ofPickle?_pickle harises.restorable hsound.sessionId_eq hsound.firstKnownIndex_eq]
    rfl
  refine ⟨⟨session.recorded, hload, rfl, ?_, ?_⟩, ?_⟩
  · change (session.maxAge.map Duration.recorded).map Duration.milliseconds = _
    simp only [Option.map_map, Function.comp_def, Duration.milliseconds_recorded]
  · intro age hage
    obtain ⟨given, -, rfl⟩ := Option.map_eq_some_iff.mp hage
    exact given.nanoseconds_recorded
  · rw [roomSessionCount_eq, roomSessions_ofSaves, ← roomSessionCount_eq, roomSessionCount_foldl]

end RoomCrypt.Store.MemoryStore

namespace RoomCrypt.Store.MemoryStore

open Megolm (InboundSession Receiver cacheSession cacheMessage)
open Olm (Channel)
open scoped Suite.Evaluation

/-- A session that was restored from a backup, with a limit of parts of a millisecond. -/
def labelledSession : InboundSession Receiver :=
  { InboundSession.ofExported ⟨.ofNatLE 32 7⟩ (.ofList [("ed25519", "key"), ("", "\"")]) ⟨"!saved", by decide⟩
      cacheSession.exportedKey ⟨9⟩ with
    forwardingChain := ["", "ä"]
    maxAge := some ⟨5, ⟨1999999, by decide⟩⟩
    maxMessages := none
    backupVersion := some "1" }

/-- The session after a message that was ahead. -/
def laterSession : InboundSession Receiver :=
  { labelledSession with state := labelledSession.state.afterDecrypt (cacheMessage 3) }

/-- The session of another sender. -/
def otherSession : InboundSession Receiver :=
  { labelledSession with senderKey := ⟨.ofNatLE 32 8⟩ }

/-- What was saved: the session before the message, and then after it, together with the other one. -/
def laterSaves : List (Changes Channel) :=
  [{ roomSessions := [labelledSession] }, { roomSessions := [laterSession, otherSession] }]

/-- The session is loaded as it was when it was saved again, with the ratchet of the message and full milliseconds. -/
theorem saved_room_session_comes_back_later :
    let store := ofSaves {} laterSaves
    labelledSession.decrypt (cacheMessage 3) = .ok (⟨[3], 256⟩, laterSession) ∧
      (∃ loaded, store.loadRoomSession laterSession.room laterSession.senderKey laterSession.sessionId =
          .ok (some loaded) ∧ loaded.state = laterSession.state ∧ loaded.claimedKeys = laterSession.claimedKeys ∧
          loaded.forwardingChain = ["", "ä"] ∧ loaded.maxAge.map Duration.milliseconds = some 5001) ∧
      store.roomSessionCount = 2 := by
  intro store
  have hdecrypt : labelledSession.decrypt (cacheMessage 3) = .ok (⟨[3], 256⟩, laterSession) := by decide +kernel
  have harises : laterSession.Arises := .decrypted (.labelled _ _ _ _ (.exported _ _ _ rfl _)) hdecrypt
  have hsaves : laterSaves.flatMap Changes.roomSessions = [labelledSession] ++ laterSession :: [otherSession] := rfl
  have hother : ∀ later ∈ [otherSession], later.name ≠ laterSession.name := by decide +kernel
  obtain ⟨⟨loaded, hload, hsame, hage, -⟩, hcount⟩ := saved_room_session_comes_back {} laterSaves hsaves hother harises
  refine ⟨hdecrypt, ⟨loaded, hload, ?_, ?_, ?_, hage.trans (by decide +kernel)⟩, hcount.trans (by decide +kernel)⟩
  · rw [hsame]
  · rw [hsame]
  · rw [hsame]
    rfl

end RoomCrypt.Store.MemoryStore
