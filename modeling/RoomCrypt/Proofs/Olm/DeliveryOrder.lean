import Mathlib.Data.List.Perm.Basic
import RoomCrypt.Proofs.Olm.Epoch
import RoomCrypt.Proofs.Olm.Jumps

/-!
# The order of delivery

The messages of a chain may be delivered in any order. What becomes of a ratchet on the way depends only on
the places that have been read and not on the order in which they were: the chain stands behind the last of
them, and the keys of the places below it that have not been read stand in front of the other skipped keys,
the last place first. When all places have been read, none of these keys is left.

Places are counted here from that of the chain at the beginning.
-/

namespace RoomCrypt.Olm

/-- The place behind the last one that was read. -/
def reach : List ℕ → ℕ
  | [] => 0
  | place :: read => max (place + 1) (reach read)

/-- The places below it that were not read, first place first. -/
def unread (read : List ℕ) : List ℕ :=
  (List.range (reach read)).filter (· ∉ read)

/-- The places that were read lie below the reach. -/
theorem lt_reach {read : List ℕ} {place : ℕ} (h : place ∈ read) : place < reach read := by
  induction read with
  | nil => simp at h
  | cons first read ih =>
    rcases List.mem_cons.mp h with rfl | hrest
    · exact Nat.lt_of_lt_of_le (Nat.lt_succ_self _) (Nat.le_max_left _ _)
    · exact Nat.lt_of_lt_of_le (ih hrest) (Nat.le_max_right _ _)

/-- The reach does not go beyond what lies above all places that were read. -/
theorem reach_le {read : List ℕ} {count : ℕ} (h : ∀ place ∈ read, place < count) : reach read ≤ count := by
  induction read with
  | nil => exact Nat.zero_le _
  | cons first read ih =>
    obtain ⟨hfirst, hread⟩ := List.forall_mem_cons.mp h
    exact Nat.max_le.mpr ⟨hfirst, ih hread⟩

/-- The place right below the reach was read. -/
theorem mem_of_reach {read : List ℕ} {place : ℕ} (h : reach read = place + 1) : place ∈ read := by
  induction read with
  | nil => simp [reach] at h
  | cons first read ih =>
    rcases Nat.le_total (first + 1) (reach read) with hle | hle
    · rw [reach, Nat.max_eq_right hle] at h
      exact List.mem_cons_of_mem _ (ih h)
    · rw [reach, Nat.max_eq_left hle] at h
      rw [Nat.succ.inj h]
      exact List.mem_cons_self

/-- A place is unread if it lies below the reach and was not read. -/
theorem mem_unread {read : List ℕ} {place : ℕ} : place ∈ unread read ↔ place < reach read ∧ place ∉ read := by
  simp [unread]

/-- So there are fewer unread places than the reach has. -/
theorem length_unread_le (read : List ℕ) : (unread read).length ≤ reach read - 1 := by
  cases hreach : reach read with
  | zero => simp [unread, hreach]
  | succ last =>
    have hlast := mem_of_reach hreach
    rw [unread, hreach, List.range_succ, List.filter_append]
    simp only [hlast, not_true_eq_false, decide_false, Bool.false_eq_true, not_false_eq_true,
      List.filter_cons_of_neg, List.filter_nil, List.append_nil]
    exact Nat.le_trans (List.length_filter_le _ _) (Nat.le_of_eq List.length_range)

/-- Reading a place that was passed over takes it out of the unread ones. -/
theorem unread_cons_of_mem {read : List ℕ} {place : ℕ} (h : place ∈ unread read) :
    ∃ earlier later, unread read = earlier ++ place :: later ∧ unread (place :: read) = earlier ++ later ∧
      place ∉ earlier ∧ place ∉ later := by
  obtain ⟨hlt, hnew⟩ := mem_unread.mp h
  obtain ⟨earlier, later, hsplit⟩ := List.append_of_mem h
  have hnodup : (earlier ++ place :: later).Nodup := hsplit ▸ List.nodup_range.filter _
  obtain ⟨hearlier, hlater⟩ : place ∉ earlier ∧ place ∉ later := by
    have hmiddle := List.nodup_middle.mp hnodup
    simpa [not_or] using (List.nodup_cons.mp hmiddle).1
  refine ⟨earlier, later, hsplit, ?_, hearlier, hlater⟩
  have hreach : reach (place :: read) = reach read := Nat.max_eq_right hlt
  have hfilter : unread (place :: read) = (unread read).filter (· ≠ place) := by
    rw [unread, hreach, unread, List.filter_filter]
    simp only [List.mem_cons, not_or, Bool.decide_and]
  rw [hfilter, hsplit, List.filter_append, List.filter_cons]
  have hkeep {places : List ℕ} (hplaces : place ∉ places) : places.filter (· ≠ place) = places := by
    apply List.filter_eq_self.mpr
    intro other hother
    exact decide_eq_true fun hsame => hplaces (hsame ▸ hother)
  rw [hkeep hearlier, hkeep hlater]
  simp

/-- Reading a place that was not reached yet leaves those in between unread. -/
theorem unread_cons_of_le {read : List ℕ} {place : ℕ} (h : reach read ≤ place) :
    unread (place :: read) = unread read ++ List.range' (reach read) (place - reach read) := by
  have hreach : reach (place :: read) = place + 1 := Nat.max_eq_left (Nat.le_succ_of_le h)
  have hrange : List.range (place + 1) =
      List.range (reach read) ++ (List.range' (reach read) (place - reach read) ++ [place]) := by
    have hsum : List.range place = List.range (reach read + (place - reach read)) :=
      congrArg List.range (Nat.add_sub_cancel' h).symm
    rw [List.range_succ, hsum, List.range_add, ← List.range'_eq_map_range, List.append_assoc]
  rw [unread, hreach, hrange, List.filter_append, List.filter_append]
  congr 1
  · apply List.filter_congr
    intro other hother
    have hlt := List.mem_range.mp hother
    have hne : other ≠ place := by omega
    simp [hne]
  · have hpassed : ∀ other ∈ List.range' (reach read) (place - reach read), other ∉ place :: read := by
      intro other hother hmem
      obtain ⟨hfrom, hto⟩ := List.mem_range'_1.mp hother
      rcases List.mem_cons.mp hmem with rfl | hold
      · omega
      · exact absurd (lt_reach hold) (Nat.not_lt.mpr hfrom)
    rw [List.filter_eq_self.mpr fun other hother => decide_eq_true (hpassed other hother)]
    simp

/-- When all places have been read, the reach is their number. -/
theorem reach_of_perm {read : List ℕ} {count : ℕ} (h : read.Perm (List.range count)) : reach read = count := by
  have hle : reach read ≤ count := reach_le fun place hplace => List.mem_range.mp (h.mem_iff.mp hplace)
  cases count with
  | zero => exact Nat.le_zero.mp hle
  | succ last =>
    have hlast : last ∈ read := h.mem_iff.mpr (List.mem_range.mpr (Nat.lt_succ_self last))
    exact Nat.le_antisymm hle (lt_reach hlast)

/-- And no place is unread. -/
theorem unread_of_perm {read : List ℕ} {count : ℕ} (h : read.Perm (List.range count)) : unread read = [] := by
  apply List.eq_nil_iff_forall_not_mem.mpr
  intro place hplace
  obtain ⟨hlt, hnew⟩ := mem_unread.mp hplace
  rw [reach_of_perm h] at hlt
  exact hnew (h.mem_iff.mpr (List.mem_range.mpr hlt))

variable [Suite]

namespace ReceiverChain

/-- The key of a place of the chain. -/
def keyAhead (chain : ReceiverChain) (place : ℕ) : SkippedKey :=
  ⟨chain.ratchetKey, (chain.chainKey.ahead place).messageKey⟩

/-- Distances on a chain add up. -/
theorem ahead_ahead (chain : ReceiverChain) (m n : ℕ) : (chain.ahead m).ahead n = chain.ahead (m + n) :=
  congrArg (ReceiverChain.mk chain.ratchetKey) (chain.chainKey.ahead_ahead m n)

/-- The message with a text at a place of the chain. -/
def messageAt (chain : ReceiverChain) (ratchetKey : Curve25519Key) (place : ℕ) (text : Bytes) : OlmMessage :=
  (chain.ahead place).messageKey.encrypt ratchetKey text

/-- What a chain passes over that has moved before. -/
theorem passed_ahead (chain : ReceiverChain) (start count : ℕ) :
    (chain.ahead start).passed count = (List.range' start count).map chain.keyAhead := by
  rw [passed, List.range'_eq_map_range, List.map_map]
  apply List.map_congr_left
  intro i _
  simp only [Function.comp_apply, keyAhead, ratchetKey_ahead, chainKey_ahead, ChainKey.ahead_ahead]

/-- The gap between two places of the chain. -/
theorem gap_messageAt (chain : ReceiverChain) (ratchetKey : Curve25519Key) (text : Bytes) {start place : ℕ}
    (hle : start ≤ place) (hplace : chain.index.toNat + place < UInt32.size) :
    (chain.ahead start).index ≤ (chain.messageAt ratchetKey place text).index ∧
      (chain.ahead start).gap (chain.messageAt ratchetKey place text) = place - start := by
  have hstart := chain.toNat_index_ahead start (by omega)
  have hindex : (chain.messageAt ratchetKey place text).index.toNat = chain.index.toNat + place :=
    chain.toNat_index_ahead place hplace
  have hbehind : (chain.ahead start).index ≤ (chain.messageAt ratchetKey place text).index := by
    rw [UInt32.le_iff_toNat_le, hstart, hindex]
    omega
  refine ⟨hbehind, ?_⟩
  rw [gap_eq _ _ hbehind, hstart, hindex]
  omega

end ReceiverChain

namespace Ratchet

omit [Suite] in
/-- A chain that takes the place of the first chain of its ratchet key is found there. -/
theorem locate?_set {ratchetKey : Curve25519Key} {chains : List ReceiverChain} {position : ℕ}
    {chain moved : ReceiverChain} (h : locate? ratchetKey chains = some (position, chain))
    (hmoved : moved.belongsTo ratchetKey = true) :
    locate? ratchetKey (chains.set position moved) = some (position, moved) := by
  induction chains generalizing position with
  | nil => simp [locate?] at h
  | cons first rest ih =>
    by_cases hfirst : first.belongsTo ratchetKey
    · simp only [locate?, hfirst, if_true, Option.some.injEq, Prod.mk.injEq] at h
      obtain ⟨rfl, rfl⟩ := h
      simp only [List.set_cons_zero, locate?, hmoved, if_true]
    · simp only [locate?, hfirst, Bool.false_eq_true, if_false, Option.map_eq_some_iff, Prod.mk.injEq,
        Prod.exists] at h
      obtain ⟨i, found, h, rfl, rfl⟩ := h
      simp only [List.set_cons_succ, locate?, hfirst, Bool.false_eq_true, if_false, ih h, Option.map_some]

/-- Decrypt messages one after the other. -/
def decryptAll (ratchet : Ratchet) : List OlmMessage → Except RatchetError (List Bytes × Ratchet)
  | [] => .ok ([], ratchet)
  | message :: rest => do
    let (plain, ratchet) ← ratchet.decrypt message
    let (plains, ratchet) ← ratchet.decryptAll rest
    pure (plain :: plains, ratchet)

/-- Reading the first message and then the others is reading all of them. -/
theorem decryptAll_cons {ratchet next after : Ratchet} {message : OlmMessage} {rest : List OlmMessage}
    {plain : Bytes} {plains : List Bytes} (hfirst : ratchet.decrypt message = .ok (plain, next))
    (hrest : next.decryptAll rest = .ok (plains, after)) :
    ratchet.decryptAll (message :: rest) = .ok (plain :: plains, after) := by
  rw [decryptAll, hfirst]
  change next.decryptAll rest >>= _ = _
  rw [hrest]
  rfl

/-- Only the first message sees what the ratchet was before. -/
theorem decryptAll_of_first {ratchet other : Ratchet} {message : OlmMessage} {rest : List OlmMessage}
    {result : List Bytes × Ratchet}
    (hfirst : ∀ {plain next}, other.decrypt message = .ok (plain, next) → ratchet.decrypt message = .ok (plain, next))
    (h : other.decryptAll (message :: rest) = .ok result) : ratchet.decryptAll (message :: rest) = .ok result := by
  obtain ⟨⟨plain, next⟩, hdecrypt, hrest⟩ := bind_eq_ok_iff.mp h
  exact bind_eq_ok_iff.mpr ⟨(plain, next), hfirst hdecrypt, hrest⟩

/-- A ratchet has room for a number of messages of a chain: their places can be counted, nothing is kept for
them, and the ratchet may pass over all but one of them and keep the keys. -/
structure HasRoom (ratchet : Ratchet) (ratchetKey : Curve25519Key) (chain : ReceiverChain) (count : ℕ) :
    Prop where
  last_le : chain.index.toNat + count ≤ lastPlace.toNat
  kept_below : ∀ key ∈ ratchet.skipped.keys, key.ratchetKey.element = ratchetKey.element →
    key.messageKey.index < chain.index
  gap_le : count - 1 ≤ ratchet.config.maxGap.toNat
  room : ratchet.skipped.keys.length + (count - 1) ≤ ratchet.config.maxSkippedKeys

/-- The ratchet with another chain at a position of its list. -/
def withChain (ratchet : Ratchet) (position : ℕ) (chain : ReceiverChain) : Ratchet :=
  { ratchet with receivers := ratchet.receivers.set position chain }

/-- The ratchet after the ratchet step for a new ratchet key, with a chain in front of the others. -/
def withNewChain (ratchet : Ratchet) (sender : SenderChain) (ratchetKey : Curve25519Key) (chain : ReceiverChain) :
    Ratchet :=
  { ratchet with
    rootKey := (ratchet.rootKey.step sender.keyPair ratchetKey).1
    sender := none
    receivers := (chain :: ratchet.receivers).take ratchet.config.maxReceiverChains }

/-- The ratchet when the messages at some places of a chain have been read. -/
def whenRead (ratchet : Ratchet) (position : ℕ) (chain : ReceiverChain) (read : List ℕ) : Ratchet :=
  { ratchet with
    receivers := ratchet.receivers.set position (chain.ahead (reach read))
    skipped := .ofKeys (((unread read).map chain.keyAhead).reverse ++ ratchet.skipped.keys)
      ratchet.skipped.capacity }

/-- A ratchet holds a chain of a ratchet key, and as many skipped keys are kept as its bounds say. -/
structure Holds (ratchet : Ratchet) (ratchetKey : Curve25519Key) (position : ℕ) (chain : ReceiverChain) :
    Prop where
  found : locate? ratchetKey ratchet.receivers = some (position, chain)
  capacity_eq : ratchet.skipped.capacity = ratchet.config.maxSkippedKeys

namespace Holds

variable {ratchet : Ratchet} {ratchetKey : Curve25519Key} {position : ℕ} {chain : ReceiverChain}
  (h : ratchet.Holds ratchetKey position chain)
include h

omit [Suite] in
/-- The chain has the ratchet key. -/
theorem element_eq : chain.ratchetKey.element = ratchetKey.element :=
  (chain.belongsTo_iff _).mp (getElem?_of_locate? h.found).2

/-- Before anything is read, the ratchet is as it is. -/
theorem whenRead_nil : ratchet.whenRead position chain [] = ratchet := by
  obtain ⟨hlt, hget⟩ := List.getElem?_eq_some_iff.mp (getElem?_of_locate? h.found).1
  have hreceivers : ratchet.receivers.set position (chain.ahead 0) = ratchet.receivers := by
    change ratchet.receivers.set position chain = ratchet.receivers
    rw [← hget]
    exact List.set_getElem_self hlt
  have hskipped : SkippedKeys.ofKeys ratchet.skipped.keys ratchet.skipped.capacity = ratchet.skipped :=
    SkippedKeys.recordAll_nil ratchet.skipped
  change { ratchet with
    receivers := ratchet.receivers.set position (chain.ahead 0)
    skipped := SkippedKeys.ofKeys ratchet.skipped.keys ratchet.skipped.capacity } = ratchet
  rw [hreceivers, hskipped]

omit h in
/-- When all places have been read, the chain stands behind them and the skipped keys are those from before. -/
theorem whenRead_of_perm {read : List ℕ} {count : ℕ} (hread : read.Perm (List.range count)) :
    ratchet.whenRead position chain read = ratchet.withChain position (chain.ahead count) := by
  unfold whenRead withChain
  rw [reach_of_perm hread, unread_of_perm hread]
  congr 1
  exact SkippedKeys.recordAll_nil ratchet.skipped

section

variable {count : ℕ} (hroom : ratchet.HasRoom ratchetKey chain count) {read : List ℕ}
  (hread : ∀ place ∈ read, place < count)
include hroom hread

/-- The keys of the unread places find room. -/
theorem keys_whenRead : (ratchet.whenRead position chain read).skipped.keys =
    ((unread read).map chain.keyAhead).reverse ++ ratchet.skipped.keys := by
  apply List.take_of_length_le
  have hunread := length_unread_le read
  have hreach := reach_le hread
  have hfits := hroom.room
  rw [h.capacity_eq, List.length_append, List.length_reverse, List.length_map]
  omega

omit h hread in
/-- The keys of the chain are told apart by the names of their messages. -/
theorem eq_of_name_eq {other place : ℕ} (hother : other < count) (hplace : place < count) {text : Bytes}
    (hname : (chain.keyAhead other).name = (chain.messageAt ratchetKey place text).name) : other = place := by
  have hlast := hroom.last_le
  have hsize : lastPlace.toNat < UInt32.size := lastPlace.toNat_lt_size
  have hindex : (chain.ahead other).index.toNat = (chain.ahead place).index.toNat :=
    congrArg UInt32.toNat (Prod.mk.inj hname).2
  rw [chain.toNat_index_ahead other (by omega), chain.toNat_index_ahead place (by omega)] at hindex
  omega

/-- A skipped key of the name of a message of the chain is the one of its place, and the place is unread. -/
theorem of_name_eq {key : SkippedKey} (hkey : key ∈ (ratchet.whenRead position chain read).skipped.keys)
    {place : ℕ} (hplace : place < count) {text : Bytes}
    (hname : key.name = (chain.messageAt ratchetKey place text).name) :
    place ∈ unread read ∧ key = chain.keyAhead place := by
  rw [h.keys_whenRead hroom hread, List.mem_append, List.mem_reverse] at hkey
  rcases hkey with hnew | hold
  · obtain ⟨other, hother, rfl⟩ := List.mem_map.mp hnew
    have hlt := Nat.lt_of_lt_of_le (mem_unread.mp hother).1 (reach_le hread)
    obtain rfl := eq_of_name_eq hroom hlt hplace hname
    exact ⟨hother, rfl⟩
  · have hlast := hroom.last_le
    have hsize : lastPlace.toNat < UInt32.size := lastPlace.toNat_lt_size
    obtain ⟨helement, hindex⟩ := Prod.mk.inj hname
    have hindex : key.messageKey.index.toNat = chain.index.toNat + place :=
      (congrArg UInt32.toNat hindex).trans (chain.toNat_index_ahead place (by omega))
    have hbelow := UInt32.lt_iff_toNat_lt.mp (hroom.kept_below key hold helement)
    omega

/-- The key of an unread place is found for its message. -/
theorem find?_of_unread {place : ℕ} (hplace : place ∈ unread read) (text : Bytes) :
    (ratchet.whenRead position chain read).skipped.find? ratchetKey
      (chain.messageAt ratchetKey place text).index = some (chain.keyAhead place).messageKey := by
  have hlt : place < count := Nat.lt_of_lt_of_le (mem_unread.mp hplace).1 (reach_le hread)
  have hname : (chain.keyAhead place).name = (chain.messageAt ratchetKey place text).name :=
    Prod.ext h.element_eq rfl
  cases hfind : (ratchet.whenRead position chain read).skipped.find? ratchetKey
      (chain.messageAt ratchetKey place text).index with
  | none =>
    refine absurd hname ((SkippedKeys.find?_eq_none_iff _ (chain.messageAt ratchetKey place text)).mp hfind _ ?_)
    rw [h.keys_whenRead hroom hread, List.mem_append, List.mem_reverse]
    exact Or.inl (List.mem_map_of_mem hplace)
  | some key =>
    obtain ⟨entry, hentry, hsame, rfl⟩ : ∃ entry ∈ (ratchet.whenRead position chain read).skipped.keys,
        entry.name = (chain.messageAt ratchetKey place text).name ∧ entry.messageKey = key :=
      SkippedKeys.mem_of_find? hfind
    rw [(h.of_name_eq hroom hread hentry hlt hsame).2]

/-- Without that key, the skipped keys are those of the places that are unread after the message. -/
theorem remove_of_unread {place : ℕ} (hplace : place ∈ unread read) (text : Bytes) :
    (ratchet.whenRead position chain read).skipped.remove ratchetKey
        (chain.messageAt ratchetKey place text).index =
      (ratchet.whenRead position chain (place :: read)).skipped := by
  have hlt : place < count := Nat.lt_of_lt_of_le (mem_unread.mp hplace).1 (reach_le hread)
  obtain ⟨earlier, later, hsplit, hrest, -, hlater⟩ := unread_cons_of_mem hplace
  have hfor (key : SkippedKey) := key.isFor_iff (chain.messageAt ratchetKey place text)
  have hfirst : ∀ key ∈ (later.map chain.keyAhead).reverse,
      ¬ key.isFor ratchetKey (chain.messageAt ratchetKey place text).index = true := by
    intro key hkey hsame
    obtain ⟨other, hother, rfl⟩ := List.mem_map.mp (List.mem_reverse.mp hkey)
    have hunread : other ∈ unread read := by
      rw [hsplit]
      exact List.mem_append_right _ (List.mem_cons_of_mem _ hother)
    have hlt' := Nat.lt_of_lt_of_le (mem_unread.mp hunread).1 (reach_le hread)
    exact hlater (eq_of_name_eq hroom hlt' hlt ((hfor _).mp hsame) ▸ hother)
  have hplaced : (chain.keyAhead place).isFor ratchetKey (chain.messageAt ratchetKey place text).index = true :=
    (hfor _).mpr (Prod.ext h.element_eq rfl)
  have hdrop : (chain.keyAhead place :: ((earlier.map chain.keyAhead).reverse ++ ratchet.skipped.keys)).eraseP
      (·.isFor ratchetKey (chain.messageAt ratchetKey place text).index) =
        (earlier.map chain.keyAhead).reverse ++ ratchet.skipped.keys := List.eraseP_cons_of_pos hplaced
  refine SkippedKeys.ext ?_ rfl
  rw [h.keys_whenRead hroom (List.forall_mem_cons.mpr ⟨hlt, hread⟩), hrest]
  change (ratchet.whenRead position chain read).skipped.keys.eraseP _ = _
  rw [h.keys_whenRead hroom hread, hsplit, List.map_append, List.map_cons, List.reverse_append, List.reverse_cons,
    List.append_assoc, List.append_assoc, List.singleton_append, List.eraseP_append_right _ hfirst, hdrop,
    List.map_append, List.reverse_append, List.append_assoc]

/-- A message at an unread place is read with its skipped key, and the place is unread no more. -/
theorem accepts_of_unread (hinverts : Suite.Inverts) {place : ℕ} (hplace : place ∈ unread read) (text : Bytes) :
    (ratchet.whenRead position chain read).Accepts (chain.messageAt ratchetKey place text) text
      (ratchet.whenRead position chain (place :: read)) := by
  have hreach : reach (place :: read) = reach read := Nat.max_eq_right (mem_unread.mp hplace).1
  have hafter : ratchet.whenRead position chain (place :: read) =
      { ratchet.whenRead position chain read with
        skipped := (ratchet.whenRead position chain read).skipped.remove ratchetKey
          (chain.messageAt ratchetKey place text).index } := by
    rw [h.remove_of_unread hroom hread hplace]
    unfold whenRead
    rw [hreach]
  rw [hafter]
  exact .skipped _ (h.find?_of_unread hroom hread hplace text) (decrypt_encrypt hinverts _ _ _)

/-- A message beyond the places that were read moves the chain, and the places in between become unread. -/
theorem accepts_of_reach_le (hinverts : Suite.Inverts) {place : ℕ} (hplace : place < count)
    (hle : reach read ≤ place) (text : Bytes) :
    (ratchet.whenRead position chain read).Accepts (chain.messageAt ratchetKey place text) text
      (ratchet.whenRead position chain (place :: read)) := by
  have hlast := hroom.last_le
  have hsize : lastPlace.toNat < UInt32.size := lastPlace.toNat_lt_size
  have hreach : reach (place :: read) = place + 1 := Nat.max_eq_left (Nat.le_succ_of_le hle)
  obtain ⟨hbehind, hgap⟩ := chain.gap_messageAt ratchetKey text hle (by omega)
  have hkey : (ratchet.whenRead position chain read).skipped.find? ratchetKey
      (chain.messageAt ratchetKey place text).index = none := by
    refine (SkippedKeys.find?_eq_none_iff _ (chain.messageAt ratchetKey place text)).mpr fun key hkey hname => ?_
    have hlt := (mem_unread.mp (h.of_name_eq hroom hread hkey hplace hname).1).1
    omega
  have hchain : locate? ratchetKey (ratchet.whenRead position chain read).receivers =
      some (position, chain.ahead (reach read)) :=
    locate?_set h.found (getElem?_of_locate? h.found).2
  have hsmall : (chain.messageAt ratchetKey place text).index - (chain.ahead (reach read)).index ≤
      ratchet.config.maxGap := by
    have hmax := hroom.gap_le
    rw [UInt32.le_iff_toNat_le]
    change (chain.ahead (reach read)).gap (chain.messageAt ratchetKey place text) ≤ _
    omega
  have hplain : ((chain.ahead (reach read)).ahead (place - reach read)).messageKey.decrypt
      (chain.messageAt ratchetKey place text) = .ok text := by
    rw [ReceiverChain.ahead_ahead, Nat.add_sub_cancel' hle]
    exact decrypt_encrypt hinverts _ _ _
  have hafter : ratchet.whenRead position chain (place :: read) =
      (ratchet.whenRead position chain read).afterHeld position (chain.ahead (reach read))
        (chain.messageAt ratchetKey place text) := by
    unfold afterHeld SkippedKeys.recordAll
    rw [hgap, h.keys_whenRead hroom hread, ReceiverChain.passed_ahead, ReceiverChain.ahead_ahead, ← Nat.add_assoc,
      Nat.add_sub_cancel' hle]
    unfold whenRead
    rw [hreach, unread_cons_of_le hle, List.map_append, List.reverse_append, List.append_assoc, List.set_set]
    rfl
  rw [hafter]
  exact .held position _ hkey hchain hbehind hsmall (hgap ▸ hplain)

/-- So any message of the chain that was not read yet is read. -/
theorem decrypt_whenRead (hinverts : Suite.Inverts) {place : ℕ} (hplace : place < count) (hnew : place ∉ read)
    (text : Bytes) :
    (ratchet.whenRead position chain read).decrypt (chain.messageAt ratchetKey place text) =
      .ok (text, ratchet.whenRead position chain (place :: read)) := by
  rw [decrypt_eq_ok_iff]
  rcases Nat.lt_or_ge place (reach read) with hlt | hle
  · exact h.accepts_of_unread hroom hread hinverts (mem_unread.mpr ⟨hlt, hnew⟩) text
  · exact h.accepts_of_reach_le hroom hread hinverts hplace hle text

end

/-- And so are all of them, one after the other, in any order in which none comes twice. -/
theorem decryptAll_whenRead {count : ℕ} (hroom : ratchet.HasRoom ratchetKey chain count)
    (hinverts : Suite.Inverts) (texts : ℕ → Bytes) {order read : List ℕ} (hnodup : (order ++ read).Nodup)
    (horder : ∀ place ∈ order, place < count) (hread : ∀ place ∈ read, place < count) :
    (ratchet.whenRead position chain read).decryptAll
        (order.map fun place => chain.messageAt ratchetKey place (texts place)) =
      .ok (order.map texts, ratchet.whenRead position chain (order.reverse ++ read)) := by
  induction order generalizing read with
  | nil => rfl
  | cons place order ih =>
    obtain ⟨hplace, horder⟩ := List.forall_mem_cons.mp horder
    obtain ⟨hnew, -⟩ := List.nodup_cons.mp hnodup
    have hfirst := h.decrypt_whenRead hroom hread hinverts hplace
      (fun hmem => hnew (List.mem_append_right _ hmem)) (texts place)
    have hrest := ih (List.nodup_middle.mpr hnodup) horder (List.forall_mem_cons.mpr ⟨hplace, hread⟩)
    rw [List.map_cons, List.map_cons, List.reverse_cons, List.append_assoc, List.singleton_append]
    exact decryptAll_cons hfirst hrest

/-- When all messages have been read, only the chain has moved, whatever the order was. -/
theorem decryptAll_of_perm {count : ℕ} (hroom : ratchet.HasRoom ratchetKey chain count)
    (hinverts : Suite.Inverts) (texts : ℕ → Bytes) {order : List ℕ} (horder : order.Perm (List.range count)) :
    ratchet.decryptAll (order.map fun place => chain.messageAt ratchetKey place (texts place)) =
      .ok (order.map texts, ratchet.withChain position (chain.ahead count)) := by
  have hnodup : (order ++ []).Nodup := by
    rw [List.append_nil]
    exact horder.nodup_iff.mpr List.nodup_range
  have hall := h.decryptAll_whenRead hroom hinverts texts hnodup
    (fun place hplace => List.mem_range.mp (horder.mem_iff.mp hplace)) (fun place hplace => nomatch hplace)
  have hperm : (order.reverse ++ []).Perm (List.range count) := by
    rw [List.append_nil]
    exact (List.reverse_perm order).trans horder
  rwa [h.whenRead_nil, whenRead_of_perm hperm] at hall

end Holds

/-- The chain on which a ratchet receives from a ratchet key, and what the ratchet is when that chain has come
to stand somewhere else. -/
inductive Receives (ratchet : Ratchet) (ratchetKey : Curve25519Key) :
    ReceiverChain → (ReceiverChain → Ratchet) → Prop where
  /-- On a chain that it holds. -/
  | held {position : ℕ} {chain : ReceiverChain}
      (hchain : locate? ratchetKey ratchet.receivers = some (position, chain)) :
      Receives ratchet ratchetKey chain (ratchet.withChain position)
  /-- On a new chain, which its next ratchet step opens. -/
  | opened {sender : SenderChain} (hchain : locate? ratchetKey ratchet.receivers = none)
      (hsender : ratchet.sender = some sender) (hmax : 1 ≤ ratchet.config.maxReceiverChains) :
      Receives ratchet ratchetKey (ratchet.freshChain sender ratchetKey) (ratchet.withNewChain sender ratchetKey)

section

variable {ratchet : Ratchet} {ratchetKey : Curve25519Key} {sender : SenderChain}
  (hmax : 1 ≤ ratchet.config.maxReceiverChains) {chain : ReceiverChain}
include hmax

/-- If chains may be kept, the new chain is found as the first one. -/
theorem locate?_withNewChain (hchain : chain.belongsTo ratchetKey = true) :
    locate? ratchetKey (ratchet.withNewChain sender ratchetKey chain).receivers = some (0, chain) := by
  obtain ⟨rest, hrest⟩ := Nat.exists_eq_add_of_le' hmax
  unfold withNewChain
  rw [hrest, List.take_succ_cons, locate?, if_pos hchain]

/-- Moving it there is putting it in front when it has moved. -/
theorem withChain_withNewChain (moved : ReceiverChain) :
    (ratchet.withNewChain sender ratchetKey chain).withChain 0 moved =
      ratchet.withNewChain sender ratchetKey moved := by
  obtain ⟨rest, hrest⟩ := Nat.exists_eq_add_of_le' hmax
  unfold withChain withNewChain
  rw [hrest, List.take_succ_cons, List.take_succ_cons, List.set_cons_zero]

/-- The first message of a new chain is read as if the chain were there already. -/
theorem decrypt_of_withNewChain (hchain : locate? ratchetKey ratchet.receivers = none)
    (hsender : ratchet.sender = some sender) {message : OlmMessage} (hkey : message.ratchetKey = ratchetKey)
    (hkept : ratchet.skipped.find? ratchetKey message.index = none) {plain : Bytes} {after : Ratchet}
    (h : (ratchet.withNewChain sender ratchetKey (ratchet.freshChain sender ratchetKey)).decrypt message =
      .ok (plain, after)) : ratchet.decrypt message = .ok (plain, after) := by
  subst hkey
  set fresh := ratchet.freshChain sender message.ratchetKey with hfresh
  set opened := ratchet.withNewChain sender message.ratchetKey fresh with hopened
  have hfound : locate? message.ratchetKey opened.receivers = some (0, fresh) :=
    locate?_withNewChain hmax ((fresh.belongsTo_iff _).mpr rfl)
  have hkept' : opened.skipped.find? message.ratchetKey message.index = none := hkept
  have hindex : message.index - fresh.index = message.index := UInt32.sub_zero _
  have hgap : fresh.gap message = message.index.toNat := ratchet.gap_freshChain sender message
  have hknown : opened.decrypt message = opened.decryptKnown 0 fresh message := by
    simp only [decrypt, hkept', hfound]
  rw [hknown] at h
  obtain ⟨-, hsmall, hplain, rfl⟩ := (decryptKnown_eq_ok_iff ..).mp h
  rw [hgap] at hplain
  have hafter : opened.afterHeld 0 fresh message = ratchet.afterOpened sender message := by
    have hmoved : opened.receivers.set 0 (fresh.ahead (message.index.toNat + 1)) =
        (fresh.ahead (message.index.toNat + 1) :: ratchet.receivers).take ratchet.config.maxReceiverChains :=
      congrArg receivers (withChain_withNewChain hmax _)
    unfold afterHeld
    rw [hgap, hmoved]
    rfl
  rw [hafter, decrypt_eq_ok_iff]
  exact .opened sender hkept hchain hsender (hindex ▸ hsmall) hplain

end

namespace Receives

variable {ratchet : Ratchet} {ratchetKey : Curve25519Key} {chain : ReceiverChain}
  {settled : ReceiverChain → Ratchet} (h : ratchet.Receives ratchetKey chain settled)
include h

/-- The chain has the ratchet key. -/
theorem element_eq : chain.ratchetKey.element = ratchetKey.element := by
  cases h with
  | held hchain => exact (chain.belongsTo_iff _).mp (getElem?_of_locate? hchain).2
  | opened hchain hsender hmax => rfl

/-- When the chain has moved, it is still found. -/
theorem found_ahead (count : ℕ) :
    ∃ position, locate? ratchetKey (settled (chain.ahead count)).receivers = some (position, chain.ahead count) := by
  have hbelongs : (chain.ahead count).belongsTo ratchetKey = true :=
    (ReceiverChain.belongsTo_iff _ _).mpr h.element_eq
  cases h with
  | @held position chain hchain => exact ⟨position, locate?_set hchain hbelongs⟩
  | opened hchain hsender hmax => exact ⟨0, locate?_withNewChain hmax hbelongs⟩

/-- With room for the messages of a chain, all of them are read in any order, and only the chain has moved. -/
theorem decryptAll_of_perm (harises : ratchet.Arises) {count : ℕ} (hcount : 1 ≤ count)
    (hroom : ratchet.HasRoom ratchetKey chain count) (hinverts : Suite.Inverts) (texts : ℕ → Bytes)
    {order : List ℕ} (horder : order.Perm (List.range count)) :
    ratchet.decryptAll (order.map fun place => chain.messageAt ratchetKey place (texts place)) =
      .ok (order.map texts, settled (chain.ahead count)) := by
  cases h with
  | held hchain => exact Holds.decryptAll_of_perm ⟨hchain, harises.capacity_eq⟩ hroom hinverts texts horder
  | @opened sender hchain hsender hmax =>
    set fresh := ratchet.freshChain sender ratchetKey
    have hholds : (ratchet.withNewChain sender ratchetKey fresh).Holds ratchetKey 0 fresh :=
      ⟨locate?_withNewChain hmax ((fresh.belongsTo_iff _).mpr rfl), harises.capacity_eq⟩
    have hall := hholds.decryptAll_of_perm ⟨hroom.last_le, hroom.kept_below, hroom.gap_le, hroom.room⟩ hinverts
      texts horder
    rw [withChain_withNewChain hmax] at hall
    cases order with
    | nil =>
      have hempty := horder.length_eq
      rw [List.length_range, List.length_nil] at hempty
      omega
    | cons place order =>
      refine decryptAll_of_first (fun h => decrypt_of_withNewChain hmax hchain hsender rfl ?_ h) hall
      -- A new chain starts at place 0, and no skipped key lies below that.
      refine (SkippedKeys.find?_eq_none_iff _ (ReceiverChain.messageAt _ ratchetKey place _)).mpr ?_
      intro key hkey hname
      exact UInt32.not_lt_zero (hroom.kept_below key hkey (Prod.mk.inj hname).1)

end Receives

end Ratchet

/-- The order of delivery on a chain does not matter. A ratchet that holds a chain of a ratchet key, or is
about to open one, reads a number of messages of the next places, all of them and in any order, each with its
own text. The ratchet at the end is the same for all orders: the chain has moved behind the messages, and the
skipped keys are those from before in their order. -/
theorem delivery_order_irrelevant (hinverts : Suite.Inverts) {ratchet : Ratchet} (harises : ratchet.Arises)
    {ratchetKey : Curve25519Key} {chain : ReceiverChain} {settled : ReceiverChain → Ratchet}
    (hreceives : ratchet.Receives ratchetKey chain settled) {count : ℕ} (hcount : 1 ≤ count)
    (hroom : ratchet.HasRoom ratchetKey chain count) (texts : ℕ → Bytes) :
    let final := settled (chain.ahead count)
    (∀ order : List ℕ, order.Perm (List.range count) →
      ratchet.decryptAll (order.map fun place => chain.messageAt ratchetKey place (texts place)) =
        .ok (order.map texts, final)) ∧
      final.skipped = ratchet.skipped ∧
      (∃ position, Ratchet.locate? ratchetKey final.receivers = some (position, chain.ahead count)) ∧
      (chain.ahead count).index.toNat = chain.index.toNat + count := by
  intro final
  have hsize : lastPlace.toNat < UInt32.size := lastPlace.toNat_lt_size
  have hlast := hroom.last_le
  refine ⟨fun order horder => hreceives.decryptAll_of_perm harises hcount hroom hinverts texts horder, ?_,
    hreceives.found_ahead count, chain.toNat_index_ahead count (by omega)⟩
  cases hreceives <;> rfl

end RoomCrypt.Olm

namespace RoomCrypt.Olm

open scoped Suite.Evaluation

/-- The chain that the next ratchet key of the other side would open in a small session. -/
def orderChain : ReceiverChain :=
  boundsAnswered.freshChain (boundsAnswered.sender.getD default) boundsNextKey

/-- A text for each place. -/
def orderText (place : ℕ) : Bytes :=
  [UInt8.ofNat place]

/-- Three messages of the new chain are delivered from the last to the first, and in another order. The keys
that were skipped on the old chain stay. -/
theorem delivery_order_irrelevant_new_chain :
    boundsAnswered.Arises ∧ Ratchet.locate? boundsNextKey boundsAnswered.receivers = none ∧
      boundsAnswered.HasRoom boundsNextKey orderChain 3 ∧
      ∃ final : Ratchet, (∀ order ∈ [[2, 1, 0], [1, 2, 0]],
          boundsAnswered.decryptAll (order.map fun place =>
            orderChain.messageAt boundsNextKey place (orderText place)) = .ok (order.map orderText, final)) ∧
        final.skipped.keys.map SkippedKey.name = [(boundsKey.element, 1), (boundsKey.element, 0)] := by
  have harises : boundsAnswered.Arises := Ratchet.Arises.useAll (.begun (.responder [7] boundsKey)) _
  have hchain : Ratchet.locate? boundsNextKey boundsAnswered.receivers = none := by decide +kernel
  have hroom : boundsAnswered.HasRoom boundsNextKey orderChain 3 :=
    ⟨by decide +kernel, by decide +kernel, by decide +kernel, by decide +kernel⟩
  have hsender : boundsAnswered.sender = some (boundsAnswered.sender.getD default) := by decide +kernel
  obtain ⟨hall, hskipped, -⟩ := delivery_order_irrelevant Suite.inverts_simple harises
    (.opened hchain hsender (by decide +kernel)) (by decide) hroom orderText
  refine ⟨harises, hchain, hroom, _, fun order horder => hall order ?_, ?_⟩
  · revert order
    decide
  · rw [hskipped]
    decide +kernel

end RoomCrypt.Olm
