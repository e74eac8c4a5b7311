import Unikraft.Cpio.Extract
import Unikraft.Kvm.Setup
import Unikraft.P9fs.Vnops
import Unikraft.Ramfs.Lifetime
import Unikraft.RingReserve
import Unikraft.Server.Hashmap
import Unikraft.Uk9p.Cleanup
import Unikraft.Ukalloc.IfMalloc
import Unikraft.Ukalloc.PageRuns
import Unikraft.Ukallocbbuddy.Complete
import Unikraft.Ukallocregion.Compat
import Unikraft.Ukargparse.Argparse
import Unikraft.Ukblkdev.Blkdev
import Unikraft.Uklibparam.Param
import Unikraft.Uklock.Mutex
import Unikraft.Ukmmap.Mmap
import Unikraft.Ukmpi.Mbox
import Unikraft.Uknetdev.Netbuf
import Unikraft.Ukschedcoop.Kill
import Unikraft.Uksglist.Join
import Unikraft.Uktimeconv.Timeconv
import Unikraft.Vfscore.Coherence
import Unikraft.Vfscore.Dup
import Unikraft.Vfscore.Pipe
import Unikraft.Virtio.BlkRun
import Unikraft.Virtio.Burst
import Unikraft.Virtio.P9Recv
import Unikraft.Xen.BlkfrontRun
import Unikraft.Xen.Revoke
import Unikraft.Xenbus.XsComms
import Unikraft.Bitops
import Unikraft.Uk9p.Fid
import Unikraft.Virtio.Net
