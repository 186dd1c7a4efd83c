import Xv6.Param
import Xv6.Lib.Writes
import Xv6.Lib.LittleEndian
import Xv6.Lib.WeightedSum
import Xv6.Lib.Image
import Xv6.Log.Disk
import Xv6.Log.Commit
import Xv6.Log.Recover
import Xv6.Log.Crash
import Xv6.Log.Checksum
import Xv6.Log.Reserve
import Xv6.Log.Install
import Xv6.Lib.Align
import Xv6.Vm.Copyout
import Xv6.Fs.Layout
import Xv6.Fs.Block
import Xv6.Fs.Balloc
import Xv6.Fs.Bmap
import Xv6.Fs.Inode
import Xv6.Fs.Dir
import Xv6.Fs.Path
import Xv6.Fs.Sysfile
import Xv6.Fs.Mkfs
import Xv6.Fs.MkfsRoot
import Xv6.Fs.Deadlock
import Xv6.Fs.Tree
import Xv6.Fs.Content
import Xv6.Lib.DList
import Xv6.Bio.Cache
import Xv6.Bio.Step
import Xv6.Bio.Coherence
import Xv6.Fs.File
import Xv6.Lib.Ring
import Xv6.Pipe.Pipe
import Xv6.Pipe.Fifo
import Xv6.Pipe.Wakeup
import Xv6.Console.Console
import Xv6.Console.Lines
import Xv6.Console.Refine
import Xv6.Console.Discipline
import Xv6.Vm.Growproc
import Xv6.Vm.Dealloc
import Xv6.Vm.Mappages
import Xv6.Vm.Kalloc
import Xv6.Vm.Allocuvm
import Xv6.Vm.Setupkvm
import Xv6.Sh.Parse
import Xv6.Sh.Grammar
import Xv6.Sh.Lexer
import Xv6.Sh.Loops
import Xv6.Sh.Correct
import Xv6.Vm.Syscall
import Xv6.Ulib.Memmove
import Xv6.Ulib.Printint
import Xv6.Ulib.Regex
import Xv6.Ulib.Grep
import Xv6.Ulib.Umalloc
import Xv6.Proc.Ptable
import Xv6.Bio.Ide
import Xv6.Bio.Pin
import Xv6.Log.Absorb
import Xv6.Proc.Cli
import Xv6.Lib.Scan
import Xv6.Fs.Icache
import Xv6.Fs.IcacheStep
import Xv6.Fs.IcacheInv
import Xv6.Fs.IcacheSpec
import Xv6.Fs.IcacheLimits
import Xv6.Proc.PtableSpec
import Xv6.Proc.PtableInv
import Xv6.Lib.Window
import Xv6.Boot.Readseg
import Xv6.Boot.Bootmain
import Xv6.Console.Cga
import Xv6.Lib.Cycle
import Xv6.Ulib.UmallocHeap
import Xv6.Ulib.UmallocInv
import Xv6.Ulib.UmallocReturns
import Xv6.Ulib.UmallocRun
import Xv6.Ulib.UmallocSbrk
