import RoomCrypt.Pickle.Keys
import RoomCrypt.Proofs.Bytes
import RoomCrypt.Proofs.Call

/-!
# What pickling writes

A step of writing has a form if it writes exactly these bytes into any buffer that has room for them,
and leaves what stands behind them as it was. Forms follow each other as the steps do, and a value
inside another one adds its own form, because it was measured before it is written.
-/

namespace RoomCrypt

variable {α : Type}

/-- The buffer with the next bytes filled in. -/
def PickleBuffer.filled (buffer : PickleBuffer) (form : Bytes) : PickleBuffer :=
  ⟨form.reverse ++ buffer.done, buffer.room.drop form.length⟩

namespace Pickler

/-- A step writes these bytes wherever there is room for them. -/
def Writes (step : Pickler Unit) (form : Bytes) : Prop :=
  ∀ buffer : PickleBuffer, form.length ≤ buffer.room.length →
    InPlace.on step buffer = (.ok (), buffer.filled form)

/-- Nothing is written. -/
theorem writes_nothing : Writes (pure ()) [] := by
  intro buffer _
  rfl

/-- A byte string is written as it is. -/
theorem writes_bytes (form : Bytes) : Writes (bytes form) form := by
  intro buffer hroom
  have hsplit : Bytes.splitAt? form.length buffer.room =
      some (buffer.room.take form.length, buffer.room.drop form.length) :=
    Bytes.splitAt?_eq_some_iff.mpr
      ⟨(List.take_append_drop _ _).symm, List.length_take_of_le hroom⟩
  unfold bytes
  rw [InPlace.on_bind, InPlace.on_get]
  simp only [hsplit]
  rfl

/-- What the second step writes follows what the first one has written. -/
theorem Writes.followed {first next : Pickler Unit} {form more : Bytes} (hfirst : Writes first form)
    (hnext : Writes next more) : Writes (first >>= fun _ => next) (form ++ more) := by
  intro buffer hroom
  rw [List.length_append] at hroom
  have hleft : more.length ≤ (buffer.filled form).room.length := by
    rw [PickleBuffer.filled, List.length_drop]
    omega
  rw [InPlace.on_bind, hfirst buffer (by omega)]
  simp only [hnext _ hleft]
  simp [PickleBuffer.filled, List.drop_drop]

/-- A number is written as its four bytes. -/
theorem writes_uint32 (n : UInt32) : Writes (uint32 n) (.ofUInt32 n) :=
  writes_bytes _

/-- A truth value is written as the byte 1 or 0. -/
theorem writes_bool (b : Bool) : Writes (bool b) [if b then 1 else 0] :=
  writes_bytes _

/-- A field of a fixed length has that length, whatever is written. -/
theorem writes_fixed (field : Bytes) (length : ℕ) :
    Writes (fixed field length) (if field.length = length then field else List.replicate length 0) := by
  intro buffer hroom
  have hlength : (if field.length = length then field else List.replicate length 0).length = length := by
    split
    · assumption
    · exact List.length_replicate
  have henough : ¬ Bytes.isShorter buffer.room length = true := by
    rw [Bytes.isShorter_iff, ← hlength]
    exact Nat.not_lt.mpr hroom
  unfold fixed
  rw [InPlace.on_bind, InPlace.on_get]
  simp only [henough]
  exact writes_bytes _ buffer hroom

end Pickler

/-- A value is pickled as these bytes, and their number was stated in advance. -/
structure HasForm [ToPickle α] (value : α) (form : Bytes) : Prop where
  size_eq : ToPickle.size value = form.length
  writes : Pickler.Writes (ToPickle.write value) form

section

variable [ToPickle α] {value : α} {form : Bytes}

/-- A value is written if the buffer is long enough, and nothing is written if it is not. -/
theorem Pickler.encode_eq (value : α) (target : Bytes) :
    encode value target =
      if target.length < ToPickle.size value then
        (.error (.bufferTooShort (ToPickle.size value) target.length), target)
      else
        let (result, buffer) := InPlace.on (ToPickle.write value) (.ofTarget target)
        (result.map fun _ => buffer.position, buffer.target) := by
  unfold encode start?
  by_cases hshort : target.length < ToPickle.size value
  · simp only [Bytes.isShorter_iff, hshort, if_true]
  · simp only [Bytes.isShorter_iff, hshort, if_false]
    rfl

/-- A value fills the start of a buffer that is long enough with its form. -/
theorem HasForm.encode (h : HasForm value form) {target : Bytes} (hlength : form.length ≤ target.length) :
    Pickler.encode value target = (.ok form.length, form ++ target.drop form.length) := by
  have hwritten := h.writes (.ofTarget target) hlength
  rw [Pickler.encode_eq, h.size_eq, if_neg (Nat.not_lt.mpr hlength), hwritten]
  simp [Except.map, PickleBuffer.filled, PickleBuffer.ofTarget, PickleBuffer.target, PickleBuffer.position]

/-- The pickle of a value is its form. -/
theorem HasForm.toPickle_eq (h : HasForm value form) : toPickle value = form := by
  have hroom : form.length ≤ (List.replicate (ToPickle.size value) (0 : UInt8)).length := by
    simp [h.size_eq]
  have hencode := h.encode hroom
  unfold toPickle
  simp only [hencode]
  exact List.take_left

/-- A value that fills the start of any buffer that is long enough does so inside of another one. -/
theorem Pickler.writes_value (h : ∀ target : Bytes, form.length ≤ target.length →
    encode value target = (.ok form.length, form ++ target.drop form.length)) :
    Writes (Pickler.value value) form := by
  intro buffer hroom
  unfold Pickler.value
  rw [InPlace.on_bind, InPlace.on_get]
  simp only [h buffer.room hroom]
  change (Except.ok (), PickleBuffer.mk _ _) = _
  simp [PickleBuffer.filled]

/-- So a value inside another one is written as its form. -/
theorem HasForm.writes_value (h : HasForm value form) : Pickler.Writes (Pickler.value value) form :=
  Pickler.writes_value fun _ => h.encode

end

/-- A value that is written as two others is written as the form of the first and that of the second. -/
theorem HasForm.pair {β γ : Type} [ToPickle α] [ToPickle β] [ToPickle γ] {first : α} {second : β} {value : γ}
    {form more : Bytes} (hfirst : HasForm first form) (hsecond : HasForm second more)
    (hsize : ToPickle.size value = ToPickle.size first + ToPickle.size second)
    (hwrite : ToPickle.write value = Pickler.value first >>= fun _ => Pickler.value second) :
    HasForm value (form ++ more) where
  size_eq := by rw [hsize, hfirst.size_eq, hsecond.size_eq, List.length_append]
  writes := by
    rw [hwrite]
    exact hfirst.writes_value.followed hsecond.writes_value

/-- A list as it is written: the number of its elements, and then the form of each of them. -/
def listForm (form : α → Bytes) (items : List α) : Bytes :=
  Bytes.ofUInt32 (UInt32.ofNat items.length) ++ items.flatMap form

section

variable [ToPickle α] {form : α → Bytes} {items : List α}

/-- The size of values is the length of their forms. -/
theorem valuesPickleSize_eq (h : ∀ item ∈ items, ToPickle.size item = (form item).length) :
    valuesPickleSize items = (items.flatMap form).length := by
  induction items with
  | nil => rfl
  | cons item items ih =>
    obtain ⟨hitem, hitems⟩ := List.forall_mem_cons.mp h
    rw [valuesPickleSize, hitem, ih hitems, List.flatMap_cons, List.length_append]

/-- And so is the size of a list. -/
theorem listPickleSize_eq (h : ∀ item ∈ items, ToPickle.size item = (form item).length) :
    listPickleSize items = (listForm form items).length := by
  rw [listPickleSize, valuesPickleSize_eq h, listForm, List.length_append, Bytes.length_ofUInt32]

/-- Values are written one after the other. -/
theorem Pickler.writes_values (h : ∀ item ∈ items, Writes (value item) (form item)) :
    Writes (values items) (items.flatMap form) := by
  induction items with
  | nil => exact writes_nothing
  | cons item items ih =>
    obtain ⟨hitem, hitems⟩ := List.forall_mem_cons.mp h
    exact hitem.followed (ih hitems)

/-- A list whose elements can be counted in 32 bits is written with their number. -/
theorem Pickler.writes_list (h : ∀ item ∈ items, Writes (value item) (form item))
    (hcount : items.length < UInt32.size) : Writes (list items) (listForm form items) := by
  unfold list
  rw [if_pos hcount]
  exact (writes_uint32 _).followed (writes_values h)

end

/-- Numbers and truth values are written as they are inside of another value. -/
theorem hasForm_uint32 (n : UInt32) : HasForm n (.ofUInt32 n) where
  size_eq := rfl
  writes := Pickler.writes_uint32 n

theorem hasForm_bool (b : Bool) : HasForm b [if b then 1 else 0] where
  size_eq := rfl
  writes := Pickler.writes_bool b

/-- The public keys of both kinds are written as their bytes. -/
theorem Curve25519Key.hasForm (key : Curve25519Key) : HasForm key key.octets.bytes where
  size_eq := key.octets.length_eq.symm
  writes := Pickler.writes_bytes _

theorem Ed25519Key.hasForm (key : Ed25519Key) : HasForm key key.octets.bytes where
  size_eq := key.octets.length_eq.symm
  writes := Pickler.writes_bytes _

end RoomCrypt
