import RoomCrypt.Backup.Info
import RoomCrypt.Backup.RoomKey

/-!
# The server of a backup

What a server answers when it is asked for the latest version of a backup and for the content of a
version, and how often the content was asked for. A request that fails has a message.
-/

namespace RoomCrypt.Backup

/-- A server that holds backups. -/
structure Server where
  /-- The latest version. -/
  latest : Except String Version
  /-- The content of a version. -/
  content : String → Except String Content
  /-- How often content was asked for. -/
  requests : Nat

/-- What a server says that has no backup. -/
def Server.notFound : String := "M_NOT_FOUND: no backup found"

namespace Server

/-- The content of each version that is named in a list, with all entries that stand beside its
name. -/
def contentsOf (backups : List (String × List (RoomId × String × Entry))) : Dict Content :=
  backups.foldl (fun contents (version, entries) =>
    contents.insert version (((contents.find? version).getD .empty).insertAll entries)) .empty

/-- A server with at most one version and with the entries of some versions. -/
def ofBackups (latest : Option Version)
    (backups : List (String × List (RoomId × String × Entry))) : Server where
  latest := match latest with
    | some version => .ok version
    | none => .error notFound
  content version := match (contentsOf backups).find? version with
    | some content => .ok content
    | none => .error notFound
  requests := 0

instance : Inhabited Server := ⟨ofBackups none []⟩

end Server

end RoomCrypt.Backup
