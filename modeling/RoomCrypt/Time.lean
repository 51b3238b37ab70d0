/-!
# Times and durations

A time is a whole number of seconds or milliseconds since the start of 1970, small enough to be
held exactly by a double. A clock counts milliseconds in 64 bits, so that it can show more than a
time in milliseconds holds, while the seconds are still a time.
-/

namespace RoomCrypt

/-- The counts below this one are held exactly by a double: `2 ^ 53`. -/
def Time.bound : Nat := Nat.pow 2 53

/-- A time, counted from the start of 1970. -/
structure Time where
  count : Nat
  count_lt : count < Time.bound
deriving DecidableEq

namespace Time

instance : Inhabited Time := ⟨⟨0, by decide⟩⟩

/-- The time with the given count, if it can be held. -/
def ofNat? (count : Nat) : Option Time :=
  if h : count < bound then some ⟨count, h⟩ else none

@[simp] theorem ofNat?_count (time : Time) : ofNat? time.count = some time :=
  dif_pos time.count_lt

/-- The time with the given count, or the last one if there is none. -/
def clamped (count : Nat) : Time :=
  ⟨min count (bound - 1), Nat.lt_of_le_of_lt (Nat.min_le_right _ _) (by decide)⟩

theorem count_clamped {count : Nat} (h : count < bound) : (clamped count).count = count :=
  Nat.min_eq_left (Nat.le_sub_one_of_lt h)

end Time

/-- What a clock shows. -/
structure Clock where
  /-- The milliseconds since the start of 1970. -/
  milliseconds : UInt64
deriving DecidableEq, Inhabited

namespace Clock

/-- The time in milliseconds. -/
def time (clock : Clock) : Time :=
  .clamped clock.milliseconds.toNat

/-- The time in seconds, rounded down. -/
def seconds (clock : Clock) : Time :=
  .clamped (clock.milliseconds.toNat / 1000)

end Clock

/-- A span of time. -/
structure Duration where
  seconds : UInt64
  /-- The nanoseconds beyond the full seconds. -/
  nanoseconds : Fin 1000000000
deriving DecidableEq, Inhabited

namespace Duration

/-- A number of milliseconds. -/
def ofMilliseconds (ms : UInt64) : Duration :=
  ⟨ms / 1000, ⟨ms.toNat % 1000 * 1000000, by omega⟩⟩

/-- A number of seconds. -/
def ofSeconds (s : UInt64) : Duration :=
  ⟨s, 0⟩

/-- The full milliseconds of a duration. -/
def milliseconds (d : Duration) : Nat :=
  1000 * d.seconds.toNat + d.nanoseconds.val / 1000000

/-- The full milliseconds of a duration, or the largest 64-bit number if there are more. -/
def clampedMilliseconds (d : Duration) : UInt64 :=
  UInt64.ofNat (min d.milliseconds (UInt64.size - 1))

end Duration

end RoomCrypt
