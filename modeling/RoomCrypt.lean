import RoomCrypt.Dict.Lemmas
import RoomCrypt.Dict.Counts
import RoomCrypt.Crypto.Standard
import RoomCrypt.Text.Base64
import RoomCrypt.Text.Base58
import RoomCrypt.Text.Blank
import RoomCrypt.Json.Reader
import RoomCrypt.Json.Writer
import RoomCrypt.Pickle.Keys
import RoomCrypt.Olm.Session
import RoomCrypt.Megolm.Outbound
import RoomCrypt.Megolm.Inbound
import RoomCrypt.Pool
import RoomCrypt.Device
import RoomCrypt.Signatures
import RoomCrypt.Backup.Info
import RoomCrypt.Backup.Encryption
import RoomCrypt.Entropy.Seeded
import RoomCrypt.Inspect
import RoomCrypt.Store.Announcements
import RoomCrypt.Store.Cache
import RoomCrypt.Store.Backend
import RoomCrypt.Machine.Sessions
import RoomCrypt.Machine.Backup
import RoomCrypt.Proofs.Call
import RoomCrypt.Proofs.Laws
import RoomCrypt.Proofs.Bytes
import RoomCrypt.Proofs.Wire
import RoomCrypt.Proofs.Fields
import RoomCrypt.Proofs.Messages
import RoomCrypt.Proofs.Text.Base64
import RoomCrypt.Proofs.Pickle.Writing
import RoomCrypt.Proofs.Pickle.Reading
import RoomCrypt.Proofs.Olm.Acceptance
import RoomCrypt.Proofs.Olm.Commitment
import RoomCrypt.Proofs.Olm.Names
import RoomCrypt.Proofs.Olm.Movement
import RoomCrypt.Proofs.Olm.Encryption
import RoomCrypt.Proofs.Olm.RatchetLog
import RoomCrypt.Proofs.Olm.Replay
import RoomCrypt.Proofs.Olm.Conversation
import RoomCrypt.Proofs.Olm.Epoch
import RoomCrypt.Proofs.Olm.InStep
import RoomCrypt.Proofs.Olm.Inbox
import RoomCrypt.Proofs.Olm.Reading
import RoomCrypt.Proofs.Olm.Sending
import RoomCrypt.Proofs.Olm.Events
import RoomCrypt.Proofs.Olm.Agreement
import RoomCrypt.Proofs.Olm.Uses
import RoomCrypt.Proofs.Olm.Bounds
import RoomCrypt.Proofs.Olm.Pickles
import RoomCrypt.Proofs.Megolm.Steps
import RoomCrypt.Proofs.Megolm.FastForward
import RoomCrypt.Proofs.Megolm.SessionKey
import RoomCrypt.Proofs.Megolm.Exchange
import RoomCrypt.Proofs.Megolm.Delivery
import RoomCrypt.Proofs.Megolm.Cache
import RoomCrypt.Proofs.Megolm.Pickles
import RoomCrypt.Proofs.Pickle.RoundTrip
import RoomCrypt.Proofs.Pickle.Canonical
import RoomCrypt.Proofs.Json.Written
import RoomCrypt.Proofs.Json.RoundTrip
import RoomCrypt.Proofs.Json.Records
import RoomCrypt.Proofs.Store.Texts
import RoomCrypt.Proofs.Megolm.Sessions
import RoomCrypt.Proofs.Megolm.Provenance
import RoomCrypt.Proofs.Megolm.Records
import RoomCrypt.Proofs.Machine.Calls
import RoomCrypt.Proofs.Machine.RoomSessions
import RoomCrypt.Proofs.Machine.RoomKeyLog
import RoomCrypt.Proofs.Machine.RoomRuns
import RoomCrypt.Proofs.Machine.RoomAuthenticity
import RoomCrypt.Proofs.Machine.RoomKeyRenewal
import RoomCrypt.Proofs.Pickle.Front
import RoomCrypt.Proofs.Olm.Restored
import RoomCrypt.Proofs.Store.DeviceSessions
import RoomCrypt.Proofs.Machine.DeviceSessions
import RoomCrypt.Proofs.Machine.SessionCalls
import RoomCrypt.Proofs.Machine.SessionRuns
import RoomCrypt.Proofs.Machine.SessionPersistence
import RoomCrypt.Proofs.Machine.CacheAgreement
import RoomCrypt.Proofs.Backup.Signatures
import RoomCrypt.Proofs.Text.Utf8
import RoomCrypt.Proofs.Backup.RoomKey
import RoomCrypt.Proofs.Backup.Encryption
import RoomCrypt.Proofs.Machine.BackupTrust
import RoomCrypt.Proofs.Machine.RoomKeyImport
import RoomCrypt.Proofs.Machine.BackupRestore
import RoomCrypt.Proofs.Machine.DecryptionRetry
import RoomCrypt.Proofs.Megolm.FullTurn
import RoomCrypt.Proofs.Olm.Loading
import RoomCrypt.Proofs.Store.SavedSessions
import RoomCrypt.Proofs.Store.Subscriptions
import RoomCrypt.Proofs.Machine.Waiting
import RoomCrypt.Proofs.Machine.KeyArrivals
import RoomCrypt.Proofs.Machine.BackupReturn
import RoomCrypt.Proofs.Olm.Jumps
import RoomCrypt.Proofs.Olm.DeliveryOrder
import RoomCrypt.Proofs.Machine.SingleSession
import RoomCrypt.Proofs.Machine.ImportSteps
import RoomCrypt.Proofs.Machine.HeardKeys
import RoomCrypt.Proofs.Text.Base58
import RoomCrypt.Proofs.Backup.RecoveryKey
import RoomCrypt.Proofs.Megolm.Exports
import RoomCrypt.Proofs.Json.Collapse
import RoomCrypt.Proofs.Backup.SignedObject
import RoomCrypt.Proofs.Machine.RecentUse
import RoomCrypt.Proofs.Pickle.Truncation
import RoomCrypt.Proofs.Megolm.KeyForms
import RoomCrypt.Proofs.Store.SavedRoomSessions
import RoomCrypt.Proofs.Pickle.Exactness
import RoomCrypt.Proofs.Pickle.Lists
import RoomCrypt.Proofs.Olm.SkippedHistory
import RoomCrypt.Proofs.Faults.UntrustedInput
