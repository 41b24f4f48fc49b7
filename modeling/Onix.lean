import Onix.Node
import Onix.Iovec
import Onix.Scan
import Onix.Pipe
import Onix.Input
import Onix.Ide
import Onix.Floppy
import Onix.Lock
import Onix.Cache.WriteBack
import Onix.Inode.Lifecycle
import Onix.Tcp.Acknowledge
import Onix.Tcp.Deliver
import Onix.Tcp.Closing
import Onix.Tcp.Reject
import Onix.Memory.Shared
import Onix.Memory.Isolation
import Onix.User.Buffers
import Onix.Fpu
import Onix.E1000
import Onix.Netif.Queues
import Onix.Arp.Cache
import Onix.Net.Bounds
import Onix.Sched.Dead
import Onix.Sched.Requests
import Onix.Own.Backlog
import Onix.Wake.Run
import Onix.Net.Fragment
import Onix.Vga.Sequences
import Onix.Vga.Lines
import Onix.Proc.Expire
import Onix.Signal.Restore
import Onix.Heap.Blocks
import Onix.Files.Duplicates
import Onix.Files.References
import Onix.Walk.Chroot
import Onix.Mount.History
import Onix.Tcp.Congestion
import Onix.Tcp.Expiry
import Onix.Tcp.Segmentation
import Onix.Block.Special
import Onix.Namei.Open
import Onix.Namei.Lookup
import Onix.Time
import Onix.Net.Checksum
import Onix.Resolv.Question
import Onix.Addr
import Onix.Udp.Address
import Onix.Dhcp.Options
import Onix.Exec.Stack
import Onix.Exec.Elf
import Onix.Memory.Mapping
import Onix.Proc.Choice
import Onix.Walk.Pwd
import Onix.Minix.Mkfs
import Onix.Minix.Path
import Onix.Keyboard
import Onix.Osh
