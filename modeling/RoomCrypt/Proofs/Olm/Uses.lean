import RoomCrypt.Proofs.Olm.Encryption
import RoomCrypt.Proofs.Olm.RatchetLog

/-!
# Whatever is done with a ratchet

A ratchet is given bounds, it encrypts texts and it decrypts messages from anyone, in any order, alone or
inside of a channel. What a property has to withstand is said once: the bounds, an encryption that
succeeds and the acceptance of a message. A call that fails leaves the ratchet as it was.
-/

namespace RoomCrypt.Olm

variable [Suite]

/-- What can be done with a ratchet. -/
inductive RatchetUse where
  | configure (config : RatchetConfig)
  | encrypt (plain : Bytes) (entropy : Entropy)
  | decrypt (message : OlmMessage)

/-- The bounds that are given. -/
def RatchetUse.config? : RatchetUse → Option RatchetConfig
  | configure config => some config
  | encrypt _ _ => none
  | decrypt _ => none

/-- All bounds that are given, first ones first. -/
def RatchetUse.configs (uses : List RatchetUse) : List RatchetConfig :=
  uses.filterMap config?

namespace Ratchet

/-- What a use leaves of a ratchet. -/
def use (ratchet : Ratchet) : RatchetUse → Ratchet
  | .configure config => ratchet.withConfig config
  | .encrypt plain entropy => ((encryptInPlace plain).on (ratchet, entropy)).2.1
  | .decrypt message => ((decryptInPlace message).on ratchet).2

/-- What uses leave of a ratchet, first use first. -/
def useAll (ratchet : Ratchet) (uses : List RatchetUse) : Ratchet :=
  uses.foldl use ratchet

/-- What a use can make of a ratchet. -/
inductive Becomes (ratchet : Ratchet) : RatchetUse → Ratchet → Prop where
  /-- A call that fails changes nothing. -/
  | same {this : RatchetUse} (hcall : this.config? = none) : Becomes ratchet this ratchet
  | configured (config : RatchetConfig) : Becomes ratchet (.configure config) (ratchet.withConfig config)
  | sent {plain : Bytes} {entropy left : Entropy} {message : OlmMessage} {after : Ratchet}
      (hencrypt : ratchet.encrypt plain entropy = .ok (message, after, left)) :
      Becomes ratchet (.encrypt plain entropy) after
  | read {message : OlmMessage} {plain : Bytes} {after : Ratchet}
      (haccepts : ratchet.Accepts message plain after) : Becomes ratchet (.decrypt message) after

/-- A use makes one of these of a ratchet. -/
theorem becomes_use (ratchet : Ratchet) (this : RatchetUse) : ratchet.Becomes this (ratchet.use this) := by
  cases this with
  | configure config => exact .configured config
  | encrypt plain entropy =>
    simp only [use, on_encryptInPlace]
    cases hencrypt : ratchet.encrypt plain entropy with
    | error e => exact .same rfl
    | ok result => exact .sent hencrypt
  | decrypt message =>
    simp only [use, on_decryptInPlace]
    cases hdecrypt : ratchet.decrypt message with
    | error e => exact .same rfl
    | ok result => exact .read ((decrypt_eq_ok_iff ..).mp hdecrypt)

/-- A message that is accepted does not change the bounds. -/
theorem Accepts.config_eq {ratchet after : Ratchet} {message : OlmMessage} {plain : Bytes}
    (h : ratchet.Accepts message plain after) : after.config = ratchet.config := by
  cases h <;> rfl

/-- A use leaves the bounds that it gives, or those from before. -/
theorem Becomes.config_eq {ratchet after : Ratchet} {this : RatchetUse} (h : ratchet.Becomes this after) :
    after.config = this.config?.getD ratchet.config := by
  cases h with
  | same hcall => rw [hcall]; rfl
  | configured config => rfl
  | sent hencrypt => exact (encrypt_frame hencrypt).2.2
  | read haccepts => exact haccepts.config_eq

/-- The bounds of a ratchet are those that were given last. -/
theorem config_useAll (ratchet : Ratchet) (uses : List RatchetUse) :
    (ratchet.useAll uses).config = (RatchetUse.configs uses).getLastD ratchet.config := by
  induction uses generalizing ratchet with
  | nil => rfl
  | cons this uses ih =>
    change ((ratchet.use this).useAll uses).config = _
    rw [ih, (ratchet.becomes_use this).config_eq, RatchetUse.configs, RatchetUse.configs, List.filterMap_cons]
    cases this.config? with
    | none => rfl
    | some config => rw [List.getLastD_cons]; rfl

/-- A property of ratchets that withstands whatever is done, if only allowed bounds are given. -/
structure Stable (allowed : RatchetConfig → Prop) (holds : Ratchet → Prop) : Prop where
  configured : ∀ {ratchet : Ratchet} {config : RatchetConfig}, allowed config → holds ratchet →
    holds (ratchet.withConfig config)
  sent : ∀ {ratchet after : Ratchet} {plain : Bytes} {entropy left : Entropy} {message : OlmMessage},
    ratchet.encrypt plain entropy = .ok (message, after, left) → holds ratchet → holds after
  read : ∀ {ratchet after : Ratchet} {message : OlmMessage} {plain : Bytes},
    ratchet.Accepts message plain after → holds ratchet → holds after

section

variable {allowed : RatchetConfig → Prop} {holds : Ratchet → Prop}

/-- A stable property withstands one use. -/
theorem Stable.becomes (h : Stable allowed holds) {ratchet after : Ratchet} {this : RatchetUse}
    (hbecomes : ratchet.Becomes this after) (hallowed : ∀ config ∈ this.config?, allowed config)
    (hratchet : holds ratchet) : holds after := by
  cases hbecomes with
  | same hcall => exact hratchet
  | configured config => exact h.configured (hallowed config rfl) hratchet
  | sent hencrypt => exact h.sent hencrypt hratchet
  | read haccepts => exact h.read haccepts hratchet

/-- And so it withstands all of them. -/
theorem Stable.useAll (h : Stable allowed holds) {ratchet : Ratchet} (hratchet : holds ratchet)
    {uses : List RatchetUse} (hallowed : ∀ config ∈ RatchetUse.configs uses, allowed config) :
    holds (ratchet.useAll uses) := by
  induction uses generalizing ratchet with
  | nil => exact hratchet
  | cons this uses ih =>
    have hfirst : ∀ config ∈ this.config?, allowed config := by
      intro config hconfig
      exact hallowed config (List.mem_filterMap.mpr ⟨this, List.mem_cons_self, hconfig⟩)
    refine ih (h.becomes (ratchet.becomes_use this) hfirst hratchet) fun config hconfig => ?_
    obtain ⟨other, hother, heq⟩ := List.mem_filterMap.mp hconfig
    exact hallowed config (List.mem_filterMap.mpr ⟨other, List.mem_cons_of_mem _ hother, heq⟩)

end

end Ratchet

/-- How a channel begins. -/
inductive ChannelOrigin where
  /-- On the side that opened it. -/
  | outbound (keys : SessionKeys) (secret : Bytes) (entropy : Entropy)
  /-- On the other side. -/
  | inbound (keys : SessionKeys) (secret : Bytes) (theirs : Curve25519Key)

namespace ChannelOrigin

/-- The channel at its beginning. -/
def channel : ChannelOrigin → Channel
  | outbound keys secret entropy => (Channel.outbound keys secret entropy).1
  | inbound keys secret theirs => .inbound keys secret theirs

/-- How its ratchet begins. -/
def origin : ChannelOrigin → Origin
  | outbound _ secret entropy => .initiator secret (.ofSecret ⟨(entropy.draw 32).1⟩)
  | inbound _ secret theirs => .responder secret theirs

theorem ratchet_channel (origin : ChannelOrigin) : origin.channel.ratchet = origin.origin.ratchet := by
  cases origin <;> rfl

end ChannelOrigin

namespace Channel

/-- What a use of the ratchet, through its channel, leaves of the channel. -/
def use (channel : Channel) : RatchetUse → Channel
  | .configure config => channel.withConfig config
  | .encrypt plain entropy => ((encryptInPlace plain).on (channel, entropy)).2.1
  | .decrypt message => ((decryptInPlace message).on channel).2

/-- What uses leave of a channel, first use first. -/
def useAll (channel : Channel) (uses : List RatchetUse) : Channel :=
  uses.foldl use channel

/-- The ratchet of a channel is used as one that stands alone. -/
theorem ratchet_use (channel : Channel) (this : RatchetUse) :
    (channel.use this).ratchet = channel.ratchet.use this := by
  cases this with
  | configure config => rfl
  | encrypt plain entropy => rfl
  | decrypt message =>
    simp only [use, Ratchet.use, on_decryptInPlace, Ratchet.on_decryptInPlace, decrypt]
    cases channel.ratchet.decrypt message with
    | error e => rfl
    | ok result => rfl

theorem ratchet_useAll (channel : Channel) (uses : List RatchetUse) :
    (channel.useAll uses).ratchet = channel.ratchet.useAll uses := by
  induction uses generalizing channel with
  | nil => rfl
  | cons this uses ih =>
    change ((channel.use this).useAll uses).ratchet = (channel.ratchet.use this).useAll uses
    rw [ih, ratchet_use]

end Channel

end RoomCrypt.Olm
