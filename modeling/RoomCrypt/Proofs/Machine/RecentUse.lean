import RoomCrypt.Proofs.Machine.DecryptionRetry

/-!
# The session that was used last

A text is encrypted with the session that was used last, and that is known in whole seconds. A session comes to the
machine with a time of last use, which is that of its creation or the one in the store, and it gets the time of the
clock when it encrypts or decrypts. So the session is the one whose last moment falls into the latest second. Sessions
that share that second are not told apart by time: of them, the one that came last is used.
-/

namespace RoomCrypt

open Olm (Session Channel)
open Store

/-- A moment of a session: it comes to the machine, or it is used there. -/
structure SessionMark where
  name : SessionName
  /-- The time of last use that the session has from then on. -/
  second : Time
  /-- The time that the clock showed. -/
  clock : Time
  /-- Did the session come, rather than being used? -/
  came : Bool
deriving DecidableEq

namespace SessionMark

/-- The last mark of a session. -/
def latest? (history : List SessionMark) (name : SessionName) : Option SessionMark :=
  history.reverse.find? (·.name = name)

/-- The names of the sessions with a device, in the order in which they came. -/
def arrivals (history : List SessionMark) (sender : String) : List SessionName :=
  (history.filter fun mark => mark.came ∧ mark.name.sender = sender).map (·.name)

/-- Later marks come first. -/
theorem latest?_append (history more : List SessionMark) (name : SessionName) :
    latest? (history ++ more) name = (latest? more name).or (latest? history name) := by
  unfold latest?
  rw [List.reverse_append, List.find?_append]

/-- A session has no last mark where it has none. -/
theorem latest?_eq_none {history : List SessionMark} {name : SessionName} (h : ∀ mark ∈ history, mark.name ≠ name) :
    latest? history name = none := by
  refine List.find?_eq_none.mpr fun mark hmark => ?_
  simpa using h mark (List.mem_reverse.mp hmark)

/-- A new mark is the last one of its session, and the other sessions have their last marks still. -/
theorem latest?_concat (history : List SessionMark) (mark : SessionMark) (name : SessionName) :
    latest? (history ++ [mark]) name = if mark.name = name then some mark else latest? history name := by
  unfold latest?
  rw [List.reverse_concat, List.find?_cons]
  by_cases hname : mark.name = name <;> simp [hname]

/-- The only mark of a session is its last one. -/
theorem latest?_of_nodup {history : List SessionMark} (hnodup : (history.map (·.name)).Nodup) {mark : SessionMark}
    (hmark : mark ∈ history) : latest? history mark.name = some mark := by
  cases hlatest : latest? history mark.name with
  | none =>
    have hother := List.find?_eq_none.mp hlatest mark (List.mem_reverse.mpr hmark)
    simp at hother
  | some other =>
    have hname : other.name = mark.name := by simpa using List.find?_some hlatest
    have hother : other ∈ history := List.mem_reverse.mp (List.mem_of_find?_eq_some hlatest)
    rw [List.inj_on_of_nodup_map hnodup hother hmark hname]

theorem arrivals_append (history more : List SessionMark) (sender : String) :
    arrivals (history ++ more) sender = arrivals history sender ++ arrivals more sender := by
  unfold arrivals
  rw [List.filter_append, List.map_append]

/-- The marks of a history are in time: the clock never goes backwards, no session comes with a later time of last use
than the clock shows, and one that is used was used then. -/
structure InTime (history : List SessionMark) : Prop where
  clock_le : history.Pairwise fun earlier later => earlier.clock.count ≤ later.clock.count
  second_le : ∀ mark ∈ history, mark.second.count ≤ mark.clock.count
  second_eq : ∀ mark ∈ history, mark.came = false → mark.second = mark.clock

/-- A later mark has no earlier second, unless the session came with a time of last use that was over. -/
theorem InTime.le_of_mem {history before after : List SessionMark} {mark later : SessionMark} (h : InTime history)
    (hsplit : history = before ++ later :: after) (hmark : mark ∈ before)
    (hcame : later.came = true → later.second = later.clock) : mark.second.count ≤ later.second.count := by
  have hlater : later ∈ history := hsplit ▸ List.mem_append_right before List.mem_cons_self
  have hsecond : later.second = later.clock := by
    cases hused : later.came with
    | true => exact hcame hused
    | false => exact h.second_eq later hlater hused
  have hclock := (List.pairwise_append.mp (hsplit ▸ h.clock_le)).2.2 mark hmark later List.mem_cons_self
  rw [hsecond]
  exact (h.second_le mark (hsplit ▸ List.mem_append_left _ hmark)).trans hclock

end SessionMark

/-- A clock that shows more shows no earlier second. -/
theorem Clock.seconds_mono {earlier later : Clock} (h : earlier.milliseconds ≤ later.milliseconds) :
    earlier.seconds.count ≤ later.seconds.count :=
  min_le_min_right _ (Nat.div_le_div_right h)

namespace Machine

variable {σ : Type} {sessions : List (Session σ)}

/-- There is a session that was used last if there is any session. -/
theorem exists_lastUsed? (h : sessions ≠ []) : ∃ place session, lastUsed? sessions = some (place, session) := by
  cases sessions with
  | nil => exact absurd rfl h
  | cons first rest =>
    unfold lastUsed?
    cases lastUsed? rest with
    | none => exact ⟨0, first, rfl⟩
    | some found =>
      dsimp only
      split <;> exact ⟨_, _, rfl⟩

/-- The first session is the one that was used last if it was used later than the last of the others. -/
theorem lastUsed?_cons_cases {first session : Session σ} {place : ℕ}
    (h : lastUsed? (first :: sessions) = some (place, session)) :
    (place = 0 ∧ session = first ∧
      ∀ found ∈ lastUsed? sessions, found.2.lastUsed.count < first.lastUsed.count) ∨
      ∃ later, place = later + 1 ∧ lastUsed? sessions = some (later, session) ∧
        first.lastUsed.count ≤ session.lastUsed.count := by
  unfold lastUsed? at h
  cases hrest : lastUsed? sessions with
  | none =>
    rw [hrest] at h
    cases h
    refine Or.inl ⟨rfl, rfl, fun found hfound => ?_⟩
    cases hfound
  | some found =>
    rw [hrest] at h
    dsimp only at h
    split at h
    · next hlater =>
      cases h
      exact Or.inl ⟨rfl, rfl, fun other hother => Option.some.inj hother ▸ hlater⟩
    · next hnotLater =>
      cases h
      exact Or.inr ⟨found.1, rfl, rfl, Nat.not_lt.mp hnotLater⟩

/-- No other session was used later, and those that were used in the same second stand before it. -/
theorem before_lastUsed? {place : ℕ} {session : Session σ} (h : lastUsed? sessions = some (place, session))
    {index : ℕ} {other : Session σ} (hother : sessions[index]? = some other) (hne : index ≠ place) :
    other.lastUsed.count < session.lastUsed.count ∨
      other.lastUsed.count = session.lastUsed.count ∧ index < place := by
  induction sessions generalizing place session index with
  | nil => cases hother
  | cons first rest ih =>
    rcases lastUsed?_cons_cases h with ⟨rfl, rfl, hlater⟩ | ⟨later, rfl, hrest, hfirst⟩
    · obtain ⟨index, rfl⟩ := Nat.exists_eq_succ_of_ne_zero hne
      rw [List.getElem?_cons_succ] at hother
      obtain ⟨place, last, hlast⟩ := exists_lastUsed? (List.ne_nil_of_mem (List.mem_of_getElem? hother))
      have hlt : last.lastUsed.count < session.lastUsed.count := hlater _ hlast
      by_cases hindex : index = place
      · subst hindex
        obtain rfl := Option.some.inj (hother.symm.trans (getElem?_of_lastUsed? hlast))
        exact Or.inl hlt
      · have hbefore := ih hlast hother hindex
        omega
    · cases index with
      | zero =>
        obtain rfl := Option.some.inj hother
        omega
      | succ index =>
        have hbefore := ih hrest hother (by omega)
        omega

end Machine

variable [Suite]

namespace MachineState

/-- The mark of a session that has just come or was just used. -/
def mark (state : MachineState) (came : Bool) (session : Session Channel) : SessionMark :=
  ⟨session.name, session.lastUsed, state.now.seconds, came⟩

/-- The sessions that come when those of a device are looked up: all that are stored, if they are not cached yet. -/
def arriving (state : MachineState) (sender : String) : List (Session Channel) :=
  match state.machine.sessions.find? sender, state.backend.loadSessions sender with
  | none, .ok found => found.getD []
  | _, _ => []

end MachineState

/-- The moments of sessions in a call. A session comes when it is added, unless its identifier is in the list, or when
the sessions of its device are looked up; and it is used when it encrypts or decrypts. -/
def SessionCall.marks (state : MachineState) : SessionCall → List SessionMark
  | add new =>
    let sessions := (state.machine.sessions.find? new.session.senderKey.toBase64).getD []
    if SessionCache.hasId new.session.sessionId sessions then [] else [state.mark true new.session]
  | encrypt senderKey plain =>
    (state.arriving senderKey.toBase64).map (state.mark true) ++
      (Machine.encryption? senderKey plain state).toList.map fun use => state.mark false use.used
  | decrypt senderKey message =>
    (state.arriving senderKey.toBase64).map (state.mark true) ++
      (Machine.decryption? senderKey message state).toList.map fun use => state.mark false use.used
  | restart => []

namespace MachineState

open SessionMark

/-- The moments of sessions in a run, the first one first. -/
def history (state : MachineState) : List SessionEvent → List SessionMark
  | [] => []
  | event :: events =>
    event.call.marks (state.within event.around) ++ history (event.call.after (state.within event.around)) events

/-- The sessions of a machine are those that have come, in that order, and each has the time of its last mark. -/
structure Recorded (state : MachineState) (history : List SessionMark) : Prop where
  arrivals_eq : ∀ sender,
    arrivals history sender = ((state.machine.sessions.find? sender).getD []).map Session.name
  latest : ∀ sender place, ∀ session ∈ state.cachedAt? sender place,
    ∃ mark ∈ latest? history session.name, mark.second = session.lastUsed

variable {state : MachineState} {P : Session Channel → Prop} {sender : String} {past : List SessionMark}

omit [Suite] in
/-- Sessions of a device that come are among the arrivals of no other device. -/
theorem arrivals_map_mark {sessions : List (Session Channel)}
    (hsender : ∀ session ∈ sessions, session.name.sender = sender) (other : String) :
    arrivals (sessions.map (state.mark true)) other = if other = sender then sessions.map Session.name else [] := by
  unfold arrivals
  by_cases hother : other = sender
  · rw [if_pos hother, List.filter_eq_self.mpr, List.map_map]
    · rfl
    · intro mark hmark
      obtain ⟨session, hsession, rfl⟩ := List.mem_map.mp hmark
      exact decide_eq_true ⟨rfl, (hsender session hsession).trans hother.symm⟩
  · rw [if_neg hother, List.filter_eq_nil_iff.mpr, List.map_nil]
    intro mark hmark hkept
    obtain ⟨session, hsession, rfl⟩ := List.mem_map.mp hmark
    exact hother ((of_decide_eq_true hkept).2.symm.trans (hsender session hsession))

/-- Cached sessions of one name stand at the same place. -/
theorem Caches.eq_of_name_eq (h : state.Caches P) {other : String} {place index : ℕ}
    {session found : Session (Slot Channel)} (hsession : state.cachedAt? sender place = some session)
    (hfound : state.cachedAt? other index = some found) (hname : found.name = session.name) :
    other = sender ∧ index = place := by
  obtain ⟨-, hsender, -⟩ := h.kept _ _ _ (viewAt?_of_cachedAt? hsession)
  obtain ⟨-, hother, -⟩ := h.kept _ _ _ (viewAt?_of_cachedAt? hfound)
  obtain rfl : other = sender := hother.symm.trans ((congrArg SessionName.sender hname).trans hsender)
  exact ⟨rfl, h.ids other index place _ (viewAt?_of_cachedAt? hfound) _ (viewAt?_of_cachedAt? hsession)
    (congrArg SessionName.sessionId hname)⟩

namespace Recorded

/-- Sessions that are loaded come to the machine. -/
theorem withLoaded (h : state.Recorded past) (hcaches : state.Caches P)
    (hlist : state.machine.sessions.find? sender = none) {loaded : List (Session Channel)}
    (hsender : ∀ session ∈ loaded, session.name.sender = sender) (hids : (loaded.map (·.sessionId)).Nodup) :
    (state.withLoaded sender loaded).Recorded (past ++ loaded.map (state.mark true)) where
  arrivals_eq other := by
    have hfind : (state.withLoaded sender loaded).machine.sessions.find? other =
        if other = sender then some (Machine.share state.channels loaded).1 else state.machine.sessions.find? other :=
      Dict.find?_insert ..
    have hnames : (Machine.share state.channels loaded).1.map Session.name = loaded.map Session.name := by
      rw [Machine.share_eq, List.map_map]
      conv_rhs => rw [← List.zipIdx_map_fst state.channels.items.length loaded, List.map_map]
      rfl
    rw [arrivals_append, h.arrivals_eq, hfind, arrivals_map_mark hsender]
    by_cases hother : other = sender
    · rw [if_pos hother, if_pos hother, hother, hlist, Option.getD_some, hnames]
      rfl
    · rw [if_neg hother, if_neg hother, List.append_nil]
  latest other place session hsession := by
    rw [cachedAt?_withLoaded] at hsession
    rw [latest?_append]
    split at hsession
    · next hsame =>
      obtain ⟨found, hfound, rfl⟩ := Option.map_eq_some_iff.mp hsession
      have hnodup : ((loaded.map (state.mark true)).map (·.name)).Nodup := by
        refine List.Nodup.of_map SessionName.sessionId ?_
        rw [List.map_map, List.map_map]
        exact hids
      have hmark := latest?_of_nodup hnodup (List.mem_map_of_mem (List.mem_of_getElem? hfound))
      exact ⟨_, Option.or_eq_some_iff.mpr (Or.inl hmark), rfl⟩
    · next hdiffers =>
      obtain ⟨-, hother, -⟩ := hcaches.kept _ _ _ (viewAt?_of_cachedAt? hsession)
      have hnone : latest? (loaded.map (state.mark true)) session.name = none := by
        refine latest?_eq_none fun mark hmark hname => ?_
        obtain ⟨found, hfound, rfl⟩ := List.mem_map.mp hmark
        exact hdiffers (hother.symm.trans ((congrArg SessionName.sender hname).symm.trans (hsender found hfound)))
      rw [hnone, Option.none_or]
      exact h.latest other place session hsession

/-- When the sessions of a device are looked up, those come that are loaded. -/
theorem lookedUp (h : state.Recorded past) (htidy : state.SessionsTidy) (sender : String) :
    (state.lookedUp sender).Recorded (past ++ (state.arriving sender).map (state.mark true)) := by
  unfold MachineState.lookedUp arriving
  cases hlist : state.machine.sessions.find? sender with
  | some sessions =>
    rw [Machine.on_sessionsOf_of_cached hlist]
    simpa using h
  | none =>
    rw [Machine.on_sessionsOf_of_not_cached hlist]
    cases hload : state.backend.loadSessions sender with
    | error e => simpa using h
    | ok found =>
      obtain ⟨hids, hmembers⟩ := htidy.stored.loadSessions (Backend.eq_ok_of_attempt hload)
      exact h.withLoaded htidy.cached hlist (fun session hsession => (hmembers session hsession).1)
        (hids ▸ Dict.nodup_keys _)

/-- A session that is used gets a mark. -/
theorem putUsed (h : state.Recorded past) (hcaches : state.Caches P) {place : ℕ} {session : Session (Slot Channel)}
    (hcached : state.cachedAt? sender place = some session) {used : Session Channel}
    (hname : used.name = session.name) (now : MachineState) :
    (state.putUsed sender place session.state used).Recorded (past ++ [now.mark false used]) where
  arrivals_eq other := by
    obtain ⟨sessions, hlist, hplace⟩ := Option.bind_eq_some_iff.mp hcached
    obtain ⟨hlt, hget⟩ := List.getElem?_eq_some_iff.mp hplace
    have hset : sessions.set place session = sessions := hget ▸ List.set_getElem_self hlt
    have hput : (used.withState session.state).name = session.name := hname
    have hsame : (sessions.set place (used.withState session.state)).map Session.name = sessions.map Session.name := by
      rw [List.map_set, hput, ← List.map_set, hset]
    have hnone : arrivals [now.mark false used] other = [] := rfl
    rw [arrivals_append, h.arrivals_eq, hnone, List.append_nil, find?_putUsed hlist]
    by_cases hother : other = sender
    · rw [if_pos hother, hother, hlist, Option.getD_some, Option.getD_some, hsame]
    · rw [if_neg hother]
  latest other index found hfound := by
    rw [cachedAt?_putUsed hcached] at hfound
    rw [latest?_concat]
    split at hfound
    · obtain rfl := Option.some.inj hfound
      exact ⟨now.mark false used, if_pos rfl, rfl⟩
    · next hdiffers =>
      rw [if_neg fun heq => hdiffers (hcaches.eq_of_name_eq hcached hfound (heq.symm.trans hname))]
      exact h.latest other index found hfound

/-- A session that is added comes to the machine. -/
theorem cacheSession (h : state.Recorded past) (hcaches : state.Caches P) (session : Session (Slot Channel))
    (new : Session Channel) (hname : new.name = session.name) (hused : new.lastUsed = session.lastUsed)
    (now : MachineState) (hid : SessionCache.hasId session.sessionId
      ((state.machine.sessions.find? session.senderKey.toBase64).getD []) = false) :
    (state.cacheSession session).Recorded (past ++ [now.mark true new]) where
  arrivals_eq other := by
    have hcome : arrivals [now.mark true new] other =
        if other = session.senderKey.toBase64 then [new.name] else [] :=
      arrivals_map_mark (List.forall_mem_singleton.mpr (congrArg SessionName.sender hname)) other
    rw [arrivals_append, h.arrivals_eq, hcome, find?_cacheSession hid]
    by_cases hother : other = session.senderKey.toBase64
    · rw [if_pos hother, if_pos hother, hother, Option.getD_some, List.map_append, hname]
      rfl
    · rw [if_neg hother, if_neg hother, List.append_nil]
  latest other index found hfound := by
    have hat := cachedAt?_cacheSession hid other index
    dsimp only at hat
    rw [hat] at hfound
    rw [latest?_concat]
    split at hfound
    · obtain rfl := Option.some.inj hfound
      exact ⟨now.mark true new, if_pos hname, hused⟩
    · have hne : (now.mark true new).name ≠ found.name := by
        intro heq
        obtain ⟨-, hother, -⟩ := hcaches.kept _ _ _ (viewAt?_of_cachedAt? hfound)
        have hsame : found.name = session.name := heq.symm.trans hname
        have hsender : session.senderKey.toBase64 = other :=
          (congrArg SessionName.sender hsame).symm.trans hother
        have hhas := hasId_iff.mpr ⟨index, found, hsender ▸ hfound, rfl⟩
        have hsameId : found.sessionId = session.sessionId := congrArg SessionName.sessionId hsame
        rw [hsameId, hid] at hhas
        cases hhas
      rw [if_neg hne]
      exact h.latest other index found hfound

/-- A call that has used a session gives it a mark, after those of the sessions that had to be loaded for it. -/
theorem finish {α : Type} {use : Machine.SessionUse α} (h : state.Recorded past) (htidy : state.SessionsTidy)
    (hworks : state.backend.outage .saveChanges = none) (hsound : use.Sound state sender) :
    (use.finish sender).2.Recorded
      (past ++ ((state.arriving sender).map (state.mark true) ++ [state.mark false use.used])) := by
  have hlooked := h.lookedUp htidy sender
  obtain ⟨entropy, hstate⟩ := hsound.looked
  have hused : use.state.Recorded (past ++ (state.arriving sender).map (state.mark true)) := by
    rw [hstate]
    exact ⟨hlooked.arrivals_eq, hlooked.latest⟩
  obtain ⟨session, hcached, hslot, hbefore⟩ := hsound.cached
  have hname : use.used.name = session.name := hsound.name_eq.trans (congrArg Session.name hbefore)
  have hput := hused.putUsed (hsound.caches (htidy.lookedUp sender).cached) hcached hname state
  rw [← List.append_assoc]
  rcases use.finish_cases sender with ⟨message, hfails, -⟩ | hfinish
  · rw [hsound.backend_eq] at hfails
    cases hworks.symm.trans hfails
  · rw [hfinish, hslot]
    exact ⟨hput.arrivals_eq, hput.latest⟩

/-- To add a session gives it a mark, unless its identifier is in the list. -/
theorem add (h : state.Recorded past) (htidy : state.SessionsTidy)
    (hworks : state.backend.outage .saveChanges = none) (new : NamedSession) :
    ((SessionCall.add new).after state).Recorded (past ++ (SessionCall.add new).marks state) := by
  simp only [SessionCall.after, SessionCall.marks]
  rcases state.addSession_cases new.session with ⟨message, hfails, -⟩ | hrun
  · cases hworks.symm.trans hfails
  rw [hrun]
  cases hid : SessionCache.hasId new.session.sessionId
      ((state.machine.sessions.find? new.session.senderKey.toBase64).getD []) with
  | true =>
    have hsame : (state.sharing new.session).cacheSession (state.shared new.session) = state.sharing new.session :=
      cacheSession_of_hasId hid
    rw [if_pos rfl, List.append_nil, MachineState.afterAdding, hsame]
    exact ⟨h.arrivals_eq, h.latest⟩
  | false =>
    have hsharing : (state.sharing new.session).Recorded past := ⟨h.arrivals_eq, h.latest⟩
    have hadded := hsharing.cacheSession (htidy.cached.hold new.session.state) (state.shared new.session) new.session
      rfl rfl state hid
    rw [if_neg Bool.false_ne_true]
    exact ⟨hadded.arrivals_eq, hadded.latest⟩

/-- A call of the machine gives sessions their marks, and no other ones come to it or are used. -/
theorem after (h : state.Recorded past) (htidy : state.SessionsTidy) {around : Surroundings}
    (hworks : around.StoreWorks) {call : SessionCall} (hcall : call ≠ .restart) :
    (call.after (state.within around)).Recorded (past ++ call.marks (state.within around)) := by
  have hwithin : (state.within around).Recorded past := ⟨h.arrivals_eq, h.latest⟩
  have htidy' := htidy.within around
  cases call with
  | restart => exact absurd rfl hcall
  | add new => exact hwithin.add htidy' (hworks .saveChanges) new
  | encrypt senderKey plain =>
    have hlooked := (htidy'.lookedUp senderKey.toBase64).cached
    simp only [SessionCall.after, SessionCall.marks]
    obtain ⟨hnone, e, hrun⟩ | ⟨use, hsome, hrun, hsound, -⟩ := Machine.encrypt_cases hlooked plain
    · rw [hrun, hnone, Option.toList_none, List.map_nil, List.append_nil]
      exact hwithin.lookedUp htidy' senderKey.toBase64
    · rw [hrun, hsome]
      exact hwithin.finish htidy' (hworks .saveChanges) hsound
  | decrypt senderKey message =>
    have hlooked := (htidy'.lookedUp senderKey.toBase64).cached
    simp only [SessionCall.after, SessionCall.marks]
    obtain ⟨hnone, e, hrun⟩ | ⟨use, hsome, hrun, hsound, -⟩ := Machine.decrypt_cases hlooked message
    · rw [hrun, hnone, Option.toList_none, List.map_nil, List.append_nil]
      exact hwithin.lookedUp htidy' senderKey.toBase64
    · rw [hrun, hsome]
      exact hwithin.finish htidy' (hworks .saveChanges) hsound

/-- And so does a run. -/
theorem afterSessionEvents (h : state.Recorded past) (htidy : state.SessionsTidy) {events : List SessionEvent}
    (hcalls : ∀ event ∈ events, event.call ≠ .restart ∧ event.around.StoreWorks) :
    (state.afterSessionEvents events).Recorded (past ++ state.history events) := by
  induction events generalizing state past with
  | nil => exact (List.append_nil past).symm ▸ h
  | cons event events ih =>
    obtain ⟨⟨hcall, hworks⟩, hlater⟩ := List.forall_mem_cons.mp hcalls
    have hafter := ih (h.after htidy hworks hcall) ((htidy.within event.around).after event.call) hlater
    rw [List.append_assoc] at hafter
    exact hafter

end Recorded

/-- To look up sessions takes no random bytes. -/
theorem entropy_lookedUp (state : MachineState) (sender : String) :
    (state.lookedUp sender).entropy = state.entropy := by
  rw [lookedUp_eq]

omit [Suite] in
/-- A machine that has just been made has no sessions, and none has come to it. -/
theorem recorded_boot (user : UserId) (store : MemoryStore) : (boot user store).Recorded [] where
  arrivals_eq sender := rfl
  latest sender place session hsession := by cases hsession

end MachineState

namespace Machine

variable {state : MachineState} {senderKey : Curve25519Key}

/-- A session that encrypts was used in the second that the clock shows. -/
theorem lastUsed_of_encryption? {plain : Bytes} {use : SessionUse OlmMessage}
    (h : encryption? senderKey plain state = some use) : use.used.lastUsed = state.now.seconds := by
  unfold encryption? at h
  rcases hlookup : InPlace.on (sessionsOf senderKey.toBase64) state with ⟨e | sessions, loaded⟩ <;>
    rw [hlookup] at h
  · cases h
  obtain ⟨rfl, -⟩ := MachineState.find?_lookedUp hlookup
  obtain ⟨⟨place, session⟩, -, h⟩ := Option.bind_eq_some_iff.mp h
  obtain ⟨⟨message, used, entropy⟩, hencrypt, h⟩ := Option.bind_eq_some_iff.mp h
  cases h
  rw [← state.now_lookedUp senderKey.toBase64]
  dsimp only at hencrypt ⊢
  unfold Session.encrypt at hencrypt
  cases hchannel : ((state.lookedUp senderKey.toBase64).view session).state.encrypt plain
      (state.lookedUp senderKey.toBase64).entropy <;> rw [hchannel] at hencrypt <;> cases hencrypt
  rfl

/-- And so was one that decrypts. -/
theorem lastUsed_of_decryption? {message : OlmMessage} {use : SessionUse Bytes}
    (h : decryption? senderKey message state = some use) : use.used.lastUsed = state.now.seconds := by
  unfold decryption? at h
  rcases hlookup : InPlace.on (sessionsOf senderKey.toBase64) state with ⟨e | sessions, loaded⟩ <;>
    rw [hlookup] at h
  · cases h
  obtain ⟨rfl, -⟩ := MachineState.find?_lookedUp hlookup
  obtain ⟨opened, hopened, h⟩ := Option.bind_eq_some_iff.mp h
  obtain ⟨session, -, h⟩ := Option.bind_eq_some_iff.mp h
  cases h
  obtain ⟨session, -, -, hdecrypt⟩ := getElem?_of_firstOpened? hopened
  obtain ⟨⟨plain, channel⟩, -, hused⟩ := bind_eq_ok_iff.mp hdecrypt
  rw [← state.now_lookedUp senderKey.toBase64]
  exact congrArg Session.lastUsed (Prod.mk.inj (Except.ok.inj hused)).2.symm

/-- A text is encrypted by the session that was used last, as long as it can be saved. -/
theorem on_encrypt_of_lastUsed? {sessions : List (Session (Slot Channel))} {loaded : MachineState}
    (hlookup : InPlace.on (sessionsOf senderKey.toBase64) state = (.ok sessions, loaded)) {place : ℕ}
    {session : Session (Slot Channel)} (hlast : lastUsed? sessions = some (place, session))
    (hworks : state.backend.outage .saveChanges = none) (plain : Bytes) :
    (InPlace.on (encrypt senderKey plain) state).1 =
      (((loaded.view session).encrypt plain loaded.now loaded.entropy).map (·.1)).mapError .ratchet := by
  have hrun : InPlace.on (encrypt senderKey plain) state = _ := InPlace.on_bind _ _ _
  rw [Task.on_wrap, hlookup] at hrun
  simp only [Except.mapError, hlast] at hrun
  rw [InPlace.on_bind, InPlace.on_get] at hrun
  dsimp only at hrun
  rw [InPlace.on_bind, Task.on_ofExcept] at hrun
  rw [hrun]
  cases (loaded.view session).encrypt plain loaded.now loaded.entropy with
  | error e => rfl
  | ok result =>
    have houtage : loaded.backend.outage .saveChanges = none := by
      rw [(MachineState.find?_lookedUp hlookup).1, state.backend_lookedUp]
      exact hworks
    dsimp only [Except.mapError]
    rw [InPlace.on_bind, Task.on_set]
    dsimp only
    rw [InPlace.on_bind, Task.on_wrap, on_save]
    dsimp only [MachineState.putUsed]
    rw [houtage]
    rfl

end Machine

namespace SessionCall

variable {state : MachineState} {call : SessionCall} {mark : SessionMark}

/-- A mark has the time of its call, and a session that is used was used then. -/
theorem time_of_mem_marks (h : mark ∈ call.marks state) :
    mark.clock = state.now.seconds ∧ (mark.came = false → mark.second = mark.clock) := by
  have hloaded (sender : String) (hmark : mark ∈ (state.arriving sender).map (state.mark true)) :
      mark.clock = state.now.seconds ∧ (mark.came = false → mark.second = mark.clock) := by
    obtain ⟨session, -, rfl⟩ := List.mem_map.mp hmark
    exact ⟨rfl, nofun⟩
  cases call with
  | add new =>
    simp only [marks] at h
    split at h
    · cases h
    · obtain rfl := List.mem_singleton.mp h
      exact ⟨rfl, nofun⟩
  | encrypt senderKey plain =>
    rcases List.mem_append.mp h with h | h
    · exact hloaded _ h
    · obtain ⟨use, huse, rfl⟩ := List.mem_map.mp h
      exact ⟨rfl, fun _ => Machine.lastUsed_of_encryption? (Option.mem_toList.mp huse)⟩
  | decrypt senderKey message =>
    rcases List.mem_append.mp h with h | h
    · exact hloaded _ h
    · obtain ⟨use, huse, rfl⟩ := List.mem_map.mp h
      exact ⟨rfl, fun _ => Machine.lastUsed_of_decryption? (Option.mem_toList.mp huse)⟩
  | restart => cases h

end SessionCall

namespace MachineState

open SessionMark

variable {state : MachineState} {mark : SessionMark}

/-- A mark of a run has the time of one of its calls, and a session that is used was used then. -/
theorem time_of_mem_history {events : List SessionEvent} (h : mark ∈ state.history events) :
    ∃ event ∈ events, mark.clock = event.around.now.seconds ∧ (mark.came = false → mark.second = mark.clock) := by
  induction events generalizing state with
  | nil => cases h
  | cons event events ih =>
    rcases List.mem_append.mp h with h | h
    · exact ⟨event, List.mem_cons_self, SessionCall.time_of_mem_marks h⟩
    · obtain ⟨later, hlater, htime⟩ := ih h
      exact ⟨later, List.mem_cons_of_mem _ hlater, htime⟩

/-- If the clock never goes backwards, it does not do so from one mark to the next. -/
theorem pairwise_history (state : MachineState) {events : List SessionEvent}
    (hclock : (events.map (·.around.now)).Pairwise
      fun earlier later => earlier.milliseconds ≤ later.milliseconds) :
    (state.history events).Pairwise fun earlier later => earlier.clock.count ≤ later.clock.count := by
  induction events generalizing state with
  | nil => exact List.Pairwise.nil
  | cons event events ih =>
    obtain ⟨hfirst, hlater⟩ := List.pairwise_cons.mp hclock
    refine List.pairwise_append.mpr ⟨?_, ih _ hlater, ?_⟩
    · refine List.pairwise_iff_forall_sublist.mpr fun {earlier later} hsub => ?_
      have htime {mark : SessionMark} (hmark : mark ∈ [earlier, later]) :=
        (SessionCall.time_of_mem_marks (hsub.subset hmark)).1
      rw [htime List.mem_cons_self, htime (List.mem_cons_of_mem _ List.mem_cons_self)]
    · intro earlier hearlier later hlater
      obtain ⟨other, hother, htime, -⟩ := time_of_mem_history hlater
      rw [(SessionCall.time_of_mem_marks hearlier).1, htime]
      exact Clock.seconds_mono (hfirst _ (List.mem_map_of_mem hother))

/-- The marks of a run are followed by those of a later one. -/
theorem history_append (events more : List SessionEvent) :
    state.history (events ++ more) = state.history events ++ (state.afterSessionEvents events).history more := by
  induction events generalizing state with
  | nil => rfl
  | cons event events ih =>
    rw [List.cons_append, history, history, ih, List.append_assoc]
    rfl

end MachineState

open SessionMark

/-- The session at a place of a list is the one that was used last, as far as that is recorded, and `mark` is its last
mark. -/
structure UsedLast (history : List SessionMark) (sessions : List (Session Channel)) (place : ℕ) (mark : SessionMark) :
    Prop where
  latest : ∃ session, sessions[place]? = some session ∧ latest? history session.name = some mark
  /-- No other session was used in a later second, and those that were used in the same second stand before it. -/
  others : ∀ index other, sessions[index]? = some other → index ≠ place →
    ∃ otherMark, latest? history other.name = some otherMark ∧
      (otherMark.second.count < mark.second.count ∨ otherMark.second.count = mark.second.count ∧ index < place)
  /-- A session that was used after it, or that came after it as it was made, has done so in the same second. -/
  later : ∀ other ∈ sessions, ∀ otherMark before after, latest? history other.name = some otherMark →
    history = before ++ otherMark :: after → mark ∈ before →
      (otherMark.came = true → otherMark.second = otherMark.clock) → otherMark.second.count = mark.second.count

namespace MachineState

variable {state : MachineState}

omit [Suite] in
/-- The session of a recorded list that was used last is so by its last mark. -/
theorem Recorded.usedLast {history : List SessionMark} (h : state.Recorded history) (htime : InTime history)
    {sender : String} {sessions : List (Session (Slot Channel))}
    (hlist : state.machine.sessions.find? sender = some sessions) {place : ℕ} {session : Session (Slot Channel)}
    (hlast : Machine.lastUsed? sessions = some (place, session)) :
    ∃ mark, UsedLast history (sessions.map state.view) place mark := by
  have hplace := Machine.getElem?_of_lastUsed? hlast
  have hmark {index : ℕ} {other : Session (Slot Channel)} (hother : sessions[index]? = some other) :
      ∃ mark ∈ latest? history other.name, mark.second = other.lastUsed :=
    h.latest sender index other (Option.bind_eq_some_iff.mpr ⟨sessions, hlist, hother⟩)
  obtain ⟨mark, hlatest, hsecond⟩ := hmark hplace
  have hothers (index : ℕ) (other : Session Channel) (hother : (sessions.map state.view)[index]? = some other)
      (hne : index ≠ place) : ∃ otherMark, latest? history other.name = some otherMark ∧
        (otherMark.second.count < mark.second.count ∨
          otherMark.second.count = mark.second.count ∧ index < place) := by
    rw [List.getElem?_map] at hother
    obtain ⟨cached, hcached, rfl⟩ := Option.map_eq_some_iff.mp hother
    obtain ⟨otherMark, hotherLatest, hotherSecond⟩ := hmark hcached
    have hbefore := Machine.before_lastUsed? hlast hcached hne
    rw [← hsecond, ← hotherSecond] at hbefore
    exact ⟨otherMark, hotherLatest, hbefore⟩
  refine ⟨mark, ⟨state.view session, ?_, hlatest⟩, hothers, ?_⟩
  · rw [List.getElem?_map, hplace]
    rfl
  intro other hother otherMark before after hotherLatest hsplit hmem hcame
  have hle := htime.le_of_mem hsplit hmem hcame
  obtain ⟨index, hindex⟩ := List.getElem?_of_mem hother
  by_cases hsame : index = place
  · subst hsame
    rw [List.getElem?_map, hplace] at hindex
    obtain rfl := Option.some.inj hindex
    rw [Option.some.inj (hotherLatest.symm.trans hlatest)]
  · obtain ⟨found, hfound, hbefore⟩ := hothers index other hindex hsame
    obtain rfl := Option.some.inj (hotherLatest.symm.trans hfound)
    omega

/-- The moments of sessions until a session is chosen to encrypt for a device: those of a run, and those of the sessions
that have to be loaded for it. -/
def historyBefore (state : MachineState) (events : List SessionEvent) (around : Surroundings)
    (senderKey : Curve25519Key) : List SessionMark :=
  let called := (state.afterSessionEvents events).within around
  state.history events ++ (called.arriving senderKey.toBase64).map (called.mark true)

/-- The encryption only adds its own mark. -/
theorem exists_history_eq_append (events : List SessionEvent) (around : Surroundings) (senderKey : Curve25519Key)
    (plain : Bytes) : ∃ uses, state.history (events ++ [⟨around, .encrypt senderKey plain⟩]) =
      state.historyBefore events around senderKey ++ uses := by
  rw [history_append, history, history, List.append_nil]
  exact ⟨_, (List.append_assoc ..).symm⟩

/-- Marks are in time if the clock never goes backwards and no session comes with a time of last use that the clock has
not reached. -/
theorem inTime_historyBefore {events : List SessionEvent} {around : Surroundings} {senderKey : Curve25519Key}
    (hclock : (events.map (·.around.now) ++ [around.now]).Pairwise
      fun earlier later => earlier.milliseconds ≤ later.milliseconds)
    (hpast : ∀ mark ∈ state.historyBefore events around senderKey, mark.second.count ≤ mark.clock.count) :
    InTime (state.historyBefore events around senderKey) := by
  obtain ⟨uses, hwhole⟩ := state.exists_history_eq_append events around senderKey []
  have hclock' : ((events ++ [(⟨around, .encrypt senderKey []⟩ : SessionEvent)]).map (·.around.now)).Pairwise
      fun earlier later => earlier.milliseconds ≤ later.milliseconds := by
    rw [List.map_append]
    exact hclock
  have hpairwise := state.pairwise_history hclock'
  rw [hwhole] at hpairwise
  refine ⟨(List.pairwise_append.mp hpairwise).1, hpast, fun mark hmark hused => ?_⟩
  have hmark' : mark ∈ state.history (events ++ [⟨around, .encrypt senderKey []⟩]) :=
    hwhole ▸ List.mem_append_left uses hmark
  obtain ⟨_, -, -, hsecond⟩ := time_of_mem_history hmark'
  exact hsecond hused

end MachineState

/-- A text for a device is encrypted by the session that was used last, in every run of calls of one machine over any
store, while the store works and the clock never goes backwards. The sessions of the device are those that have come to
the machine, in that order, and the answer is that of one whose last moment falls into the latest second; of several
such sessions it is the one that came last. So a session that was used after it, or was made and came after it, shares
that second. -/
theorem encrypts_with_last_used (user : UserId) {store : MemoryStore} (hstore : store.Keeps fun _ => True)
    {events : List SessionEvent} (hcalls : ∀ event ∈ events, event.call ≠ .restart ∧ event.around.StoreWorks)
    {around : Surroundings} (hworks : around.StoreWorks)
    (hclock : (events.map (·.around.now) ++ [around.now]).Pairwise
      fun earlier later => earlier.milliseconds ≤ later.milliseconds)
    (senderKey : Curve25519Key) (plain : Bytes) {sessions : List (Session Channel)} :
    let start := MachineState.boot user store
    let state := (start.afterSessionEvents events).within around
    let history := start.historyBefore events around senderKey
    state.sessionsWith senderKey.toBase64 = .ok sessions → sessions ≠ [] →
    (∀ mark ∈ history, mark.second.count ≤ mark.clock.count) →
    sessions.map Session.name = arrivals history senderKey.toBase64 ∧
      ∃ (place : ℕ) (session : Session Channel) (mark : SessionMark), sessions[place]? = some session ∧
        UsedLast history sessions place mark ∧
        (InPlace.on (Machine.encrypt senderKey plain) state).1 =
          ((session.encrypt plain around.now around.entropy).map (·.1)).mapError .ratchet := by
  intro start state history hseen hsome hpast
  have htidy : start.SessionsTidy := ⟨MachineState.caches_boot user store, hstore⟩
  have htidy' : state.SessionsTidy := (htidy.afterSessionEvents events).within around
  have hrun := (MachineState.recorded_boot user store).afterSessionEvents htidy hcalls
  have hstate : state.Recorded (start.history events) := ⟨hrun.arrivals_eq, hrun.latest⟩
  rcases hlookup : InPlace.on (Machine.sessionsOf senderKey.toBase64) state with ⟨e | cached, loaded⟩
  · cases (MachineState.sessionsWith_of_not_found (hworks .sessions) hlookup).symm.trans hseen
  obtain ⟨hloaded, hlist⟩ := MachineState.find?_lookedUp hlookup
  have hrecorded : loaded.Recorded history := hloaded ▸ hstate.lookedUp htidy' senderKey.toBase64
  obtain rfl := Except.ok.inj (hseen.symm.trans (htidy'.cached.sessionsWith_of_found hlookup))
  have htime : InTime history := MachineState.inTime_historyBefore hclock hpast
  refine ⟨?_, ?_⟩
  · rw [hrecorded.arrivals_eq, hlist, Option.getD_some, List.map_map]
    rfl
  obtain ⟨place, session, hlast⟩ := Machine.exists_lastUsed? (mt List.map_eq_nil_iff.mpr hsome)
  obtain ⟨mark, hmark⟩ := hrecorded.usedLast htime hlist hlast
  refine ⟨place, loaded.view session, mark, ?_, hmark, ?_⟩
  · rw [List.getElem?_map, Machine.getElem?_of_lastUsed? hlast]
    rfl
  · have hnow : loaded.now = around.now := hloaded ▸ state.now_lookedUp senderKey.toBase64
    have hentropy : loaded.entropy = around.entropy := hloaded ▸ state.entropy_lookedUp senderKey.toBase64
    rw [Machine.on_encrypt_of_lastUsed? hlookup hlast (hworks .saveChanges), hnow, hentropy]

end RoomCrypt

namespace RoomCrypt

open Olm (Session Channel)
open scoped Suite.Evaluation

/-- What a call meets when the clock shows some milliseconds. -/
def showing (milliseconds : UInt64) : Surroundings :=
  { (default : Surroundings) with now := ⟨milliseconds⟩ }

/-- Two sessions with a device are added one after the other, and some time later a message is decrypted with the first
one. -/
def firstUsedAt (milliseconds : UInt64) : List SessionEvent :=
  [⟨showing 100, .add (answeredSession 2)⟩, ⟨showing 200, .add (answeredSession 4)⟩,
    ⟨showing milliseconds,
      .decrypt ⟨.ofNatLE 32 1⟩ ((openingChain 2).messageKey.encrypt (openingChain 2).publicKey [9])⟩]

/-- If that was in another second, the first session encrypts. -/
theorem encrypts_with_last_used_first :
    let senderKey : Curve25519Key := ⟨.ofNatLE 32 1⟩
    let start := MachineState.boot evaluationUser {}
    let state := (start.afterSessionEvents (firstUsedAt 2000)).within (showing 3000)
    (Machine.encryption? senderKey [7] state).map (·.used.name) = some (answeredSession 2).session.name ∧
      ∃ sessions place session mark, state.sessionsWith senderKey.toBase64 = .ok sessions ∧
        sessions[place]? = some session ∧
        UsedLast (start.historyBefore (firstUsedAt 2000) (showing 3000) senderKey) sessions place mark ∧
        (InPlace.on (Machine.encrypt senderKey [7]) state).1 =
          ((session.encrypt [7] (showing 3000).now (showing 3000).entropy).map (·.1)).mapError .ratchet := by
  intro senderKey start state
  have hworks (milliseconds : UInt64) : (showing milliseconds).StoreWorks := fun _ => rfl
  have hcalls : ∀ event ∈ firstUsedAt 2000, event.call ≠ .restart ∧ event.around.StoreWorks := by
    simp [firstUsedAt, hworks]
  have hclock : ((firstUsedAt 2000).map (·.around.now) ++ [(showing 3000).now]).Pairwise
      fun earlier later => earlier.milliseconds ≤ later.milliseconds := by decide
  have hpast : ∀ mark ∈ start.historyBefore (firstUsedAt 2000) (showing 3000) senderKey,
      mark.second.count ≤ mark.clock.count := by decide +kernel
  have hcount : (state.sessionsWith senderKey.toBase64).toOption.map List.length = some 2 := by decide +kernel
  cases hseen : state.sessionsWith senderKey.toBase64 with
  | error e =>
    rw [hseen] at hcount
    cases hcount
  | ok sessions =>
    have hsome : sessions ≠ [] := by
      rintro rfl
      rw [hseen] at hcount
      cases hcount
    obtain ⟨-, place, session, mark, hplace, hlast, hanswer⟩ := encrypts_with_last_used evaluationUser
      (Store.MemoryStore.keeps_empty {}) hcalls (hworks 3000) hclock senderKey [7] hseen hsome hpast
    exact ⟨by decide +kernel, sessions, place, session, mark, rfl, hplace, hlast, hanswer⟩

/-- If that was in the second in which both were added, the other session encrypts, though the first one was used
after it came. -/
theorem last_used_in_same_second :
    let senderKey : Curve25519Key := ⟨.ofNatLE 32 1⟩
    let start := MachineState.boot evaluationUser {}
    let state := (start.afterSessionEvents (firstUsedAt 300)).within (showing 400)
    (start.history (firstUsedAt 300)).map (·.name) = [(answeredSession 2).session.name,
        (answeredSession 4).session.name, (answeredSession 2).session.name] ∧
      (answeredSession 2).session.name ≠ (answeredSession 4).session.name ∧
      (Machine.encryption? senderKey [7] state).map (·.used.name) = some (answeredSession 4).session.name ∧
      (InPlace.on (Machine.encrypt senderKey [7]) state).1.isOk = true := by
  decide +kernel

end RoomCrypt
