import Chunkstore.Accounting.Balance
import Chunkstore.Accounting.Counters
import Chunkstore.Accounting.Rebuilt
import Chunkstore.Accounting.Rounds
import Chunkstore.Accounting.Summed
import Chunkstore.Chunking.Streaming
import Chunkstore.Codec.Transparent
import Chunkstore.Concurrent.Blobs
import Chunkstore.Concurrent.Counts
import Chunkstore.Concurrent.Indexes
import Chunkstore.Concurrent.Ingests
import Chunkstore.Crash.Leftovers
import Chunkstore.Crash.Missing
import Chunkstore.Crash.WellFormed
import Chunkstore.Exact.Invisible
import Chunkstore.Exact.Legacy
import Chunkstore.Faults.FailedDelete
import Chunkstore.Faults.FailedIngest
import Chunkstore.Faults.Process
import Chunkstore.Fs.FsBackend
import Chunkstore.Fs.KeyMap
import Chunkstore.Fs.Writers
import Chunkstore.Hostile.Reads
import Chunkstore.Bindings.AsyncIngest
import Chunkstore.Bindings.GoBackend
import Chunkstore.Bindings.GoBytes
import Chunkstore.Bindings.GoReader
import Chunkstore.Bindings.PyReader
import Chunkstore.Bindings.QueueReader
import Chunkstore.Outside.Fsck
import Chunkstore.Postgres.Agreement
import Chunkstore.Postgres.Cluster
import Chunkstore.Postgres.Failures
import Chunkstore.Backends.Files
import Chunkstore.Processes.Openings
import Chunkstore.Refinement.FileMap
import Chunkstore.Bindings.S3Backend
import Chunkstore.Bindings.SharedDirectory
