import RoomCrypt.Machine.Backup
import RoomCrypt.Proofs.Call

/-!
# Calls of a machine

What a call of a machine meets from outside are its surroundings: the clock, the random bytes, the settings
of rooms, the server of backups and the calls of the store that are out of order. They may be different at
every call. A machine that has just been made knows nothing but its store.
-/

namespace RoomCrypt

open Store

/-- What a call meets from outside. -/
structure Surroundings where
  now : Clock
  entropy : Entropy
  /-- The encryption settings of rooms, as far as they can be looked up. -/
  roomSettings : RoomId → Except StoreError (Option RoomSettings)
  /-- The server that holds backups. -/
  server : Backup.Server
  /-- The message with which a call of the store fails, if it does. -/
  outage : StoreCall → Option String

instance : Inhabited Surroundings := ⟨⟨default, default, fun _ => .ok none, default, fun _ => none⟩⟩

namespace MachineState

/-- The state that a call meets. -/
def within (state : MachineState) (around : Surroundings) : MachineState :=
  { state with
    backend := { state.backend with outage := around.outage }
    entropy := around.entropy
    now := around.now
    roomSettings := around.roomSettings
    server := around.server }

/-- A machine that has just been made over a store. -/
def boot (user : UserId) (store : MemoryStore) : MachineState :=
  within ⟨.ofUser user, ⟨store, fun _ => none⟩, {}, {}, default, default, fun _ => .ok none, default⟩ default

/-- What is left after changes were saved. -/
def afterSave [Suite] (state : MachineState) (changes : Changes (Slot Olm.Channel)) : MachineState :=
  { state with
    backend := { state.backend with store := state.backend.store.save (changes.mapStates state.channels.get) }
    machine := state.machine.remember changes }

end MachineState

namespace Task

variable {ε δ α : Type}

theorem on_ofExcept (call : Except ε α) (state : MachineState) :
    InPlace.on (ofExcept call : Task ε α) state = (call, state) := by
  cases call <;> rfl

/-- An error of a part becomes an error of the whole, and what the part has changed stays. -/
theorem on_wrap (f : ε → δ) (task : Task ε α) (state : MachineState) :
    InPlace.on (task.wrap f) state = ((InPlace.on task state).1.mapError f, (InPlace.on task state).2) := by
  unfold wrap ExceptT.adapt InPlace.on ExceptT.run ExceptT.mk
  rfl

theorem on_set (after state : MachineState) :
    InPlace.on (set after : Task ε PUnit) state = (.ok ⟨⟩, after) := rfl

end Task

/-- A call of the store that succeeds answers as the store does. -/
theorem Store.Backend.eq_ok_of_attempt {α : Type} {backend : Backend} {call : StoreCall}
    {answer : Except StoreError α} {value : α} (h : backend.attempt call answer = .ok value) : answer = .ok value := by
  unfold attempt at h
  cases houtage : backend.outage call with
  | some message =>
    rw [houtage] at h
    cases h
  | none =>
    rw [houtage] at h
    exact h

/-- Changes are saved at once, or the store fails and nothing is changed. -/
theorem Machine.on_save [Suite] (changes : Changes (Slot Olm.Channel)) (state : MachineState) :
    InPlace.on (save changes) state =
      match state.backend.outage .saveChanges with
      | some message => (.error (.backend message), state)
      | none => (.ok (), state.afterSave changes) := by
  unfold save Backend.save Backend.attempt
  rw [InPlace.on_bind, InPlace.on_get]
  dsimp only
  rw [InPlace.on_bind, Task.on_ofExcept]
  cases state.backend.outage .saveChanges <;> rfl

/-- The user whose machine is run where runs are evaluated. -/
def evaluationUser : UserId := ⟨"@user:server", by decide⟩

end RoomCrypt
