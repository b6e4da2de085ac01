import Hammer2.Bulkfree.Window
import Hammer2.Io.Writeback
import Hammer2.Freemap.Reserve
import Hammer2.Chain.Indkey
import Hammer2.Recovery.Crash
import Hammer2.Ondisk.Growfs
import Hammer2.Pfs.Masters
import Hammer2.Pfs.Snapshot
import Hammer2.Sync.Report
import Hammer2.Namespace.Scan
import Hammer2.Namespace.Map
import Hammer2.Namespace.Links
import Hammer2.Xop.Ipdep
import Hammer2.Sync.Together
import Hammer2.Sync.Slaves
import Hammer2.Remote.Admission
import Hammer2.Remote.Reader
import Hammer2.Remote.Call
import Hammer2.Xop.Backend
import Hammer2.Freemap.Space
import Hammer2.Chain.Dirty
import Hammer2.Chain.Collapse
import Hammer2.Xop.Fifo
import Hammer2.Namespace.Checkpath
import Hammer2.File.Fiemap
import Hammer2.Vfs.Errors
