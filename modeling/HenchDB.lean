import HenchDB.BTree.Retry
import HenchDB.BTree.Scan
import HenchDB.BTree.Linear
import HenchDB.Wal.Runs
import HenchDB.Session.LastWrite
import HenchDB.Ddl.Replay
import HenchDB.Replication.Promote
import HenchDB.Commit.Dump
import HenchDB.Session.Autocommit
import HenchDB.BTree.Shape
import HenchDB.Wal.Framing
import HenchDB.Wal.Staging
import HenchDB.Wal.Checksum
import HenchDB.Epoch.Safety
import HenchDB.Pool.Compact
import HenchDB.Archive.Archiver
import HenchDB.Archive.Pitr
import HenchDB.Wire.Portal
import HenchDB.Wire.BinaryDatetime
import HenchDB.Replication.Snapshot
import HenchDB.Commit.Failure
import HenchDB.Session.Router
import HenchDB.Session.Sequence
import HenchDB.Ddl.Restart
import HenchDB.Query.Membership
import HenchDB.Query.Groups
import HenchDB.Auth.Roundtrip
import HenchDB.Auth.Login
import HenchDB.Fk.Closure
import HenchDB.Sql.Like
import HenchDB.Sql.Order
import HenchDB.Wire.Framing
import HenchDB.Wire.Markers
import HenchDB.Wire.CopyEscape
import HenchDB.Wire.CopyInsert
import HenchDB.Check.Hash
import HenchDB.Wire.Timestamps
import HenchDB.Query.Move
