import TrashOS.Lib.Word
import TrashOS.Lib.PointerList
import TrashOS.Lib.Program
import TrashOS.Lib.Loop
import TrashOS.Lib.TextLayout
import TrashOS.Lib.RoundRobin
import TrashOS.Lib.Multiples
import TrashOS.Lib.Numeral
import TrashOS.Lib.Tlb
import TrashOS.Lib.Ledger
import TrashOS.Lib.Segments
import TrashOS.Lib.BitFields
import TrashOS.Lib.Protected
import TrashOS.Machine
import TrashOS.Alloc
import TrashOS.Heap.Basic
import TrashOS.Heap.Touch
import TrashOS.Heap.Ops
import TrashOS.Heap.Moves
import TrashOS.Heap.Words
import TrashOS.Heap.Run
import TrashOS.Heap.Pages
import TrashOS.Heap.Loops
import TrashOS.Heap.Open
import TrashOS.Heap.FirstFit
import TrashOS.Heap.Undo
import TrashOS.Heap.Release
import TrashOS.Page.Tables
import TrashOS.Page.Layer
import TrashOS.Page.Tlb
import TrashOS.Page.Cleanup
import TrashOS.Page.Kernel
import TrashOS.Page.Requests
import TrashOS.Page.Frames
import TrashOS.Page.Shrink
import TrashOS.Page.Grow
import TrashOS.Page.Run
import TrashOS.Page.Steps
import TrashOS.Page.Layout
import TrashOS.Page.Owner
import TrashOS.Page.Hold
import TrashOS.Page.KernelTables
import TrashOS.Page.BootFrames
import TrashOS.Page.Device
import TrashOS.Init.Map
import TrashOS.Init.Built
import TrashOS.Init.Space
import TrashOS.Init.Lookup
import TrashOS.Ram.Machine
import TrashOS.Ram.SelfMap
import TrashOS.Ram.Refine
import TrashOS.Ram.Boot
import TrashOS.Ram.Rights
import TrashOS.Proc.Sched
import TrashOS.Proc.Memory
import TrashOS.Proc.Init
import TrashOS.Proc.NewPid
import TrashOS.Proc.FreshTables
import TrashOS.Proc.Switch
import TrashOS.Proc.Waiting
import TrashOS.Proc.Supply
import TrashOS.Int.Gdt
import TrashOS.Int.Idt
import TrashOS.Int.Deliver
import TrashOS.Int.Guarded
import TrashOS.Vga.Boot
import TrashOS.Print.Agree
import TrashOS.Print.Decimal
import TrashOS.Print.Signed
import TrashOS.Print.Radix
import TrashOS.Print.Scanner
