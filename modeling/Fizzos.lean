import Fizzos.Proofs.Console
import Fizzos.Proofs.ListRuns
import Fizzos.Proofs.BitmapIds
import Fizzos.Proofs.RwExclusion
import Fizzos.Proofs.Semaphore
import Fizzos.Proofs.Cond
import Fizzos.Proofs.Sched
import Fizzos.Proofs.TimeSlice
import Fizzos.Proofs.ForkPid
import Fizzos.Proofs.Kmalloc
import Fizzos.Proofs.CowFault
import Fizzos.Proofs.Usercopy
import Fizzos.Proofs.Vma
import Fizzos.Proofs.Getline
import Fizzos.Proofs.IoqueueBytes
import Fizzos.Proofs.Inodes
import Fizzos.Proofs.NewEntry
import Fizzos.Proofs.Format
import Fizzos.Proofs.IdeInit
import Fizzos.Proofs.IdeTransfer
import Fizzos.Proofs.Files
import Fizzos.Proofs.SyncDisk
import Fizzos.Proofs.WriteLimit
import Fizzos.Proofs.OpenPath
import Fizzos.Proofs.OnlyDirs
import Fizzos.Proofs.DirSearch
import Fizzos.Proofs.ThreadFiles
import Fizzos.Proofs.UserPath
import Fizzos.Proofs.BuddyLayout
import Fizzos.Proofs.KmallocLarge
import Fizzos.Proofs.PoolInit
import Fizzos.Proofs.PageFault
import Fizzos.Proofs.ExecArgs
import Fizzos.Proofs.DemandPaging
import Fizzos.Proofs.ExecReads
import Fizzos.Proofs.ExecRuns
import Fizzos.Proofs.ExecFiles
import Fizzos.Proofs.ExecMmap
import Fizzos.Proofs.VmaQueries
import Fizzos.Proofs.FlushFiles
import Fizzos.Proofs.ListMoves
import Fizzos.Proofs.SelfMap
import Fizzos.Proofs.DupMmap
import Fizzos.Proofs.FilesysInit
import Fizzos.Proofs.Printk
import Fizzos.Proofs.PutChar
import Fizzos.Proofs.ParseCmd
import Fizzos.Proofs.Numerals
import Fizzos.Proofs.Memcpy
import Fizzos.Proofs.Strncmp
import Fizzos.Proofs.ReadNumerals
import Fizzos.Proofs.StableQueue
import Fizzos.Proofs.BitmapSeries
import Fizzos.Proofs.Switch
import Fizzos.Proofs.Trap
import Fizzos.Proofs.Syscall
import Fizzos.Proofs.IdeChannel
import Fizzos.Proofs.ReadyWait
import Fizzos.Proofs.IntrStatus
import Fizzos.Proofs.SetupPage
import Fizzos.Proofs.KernelSpace
import Fizzos.Proofs.LineEdit
import Fizzos.Proofs.Process
import Fizzos.Proofs.Protection
import Fizzos.Proofs.Interrupt
