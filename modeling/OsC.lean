import OsC.Word
import OsC.Frames
import OsC.Loop
import OsC.Bytes
import OsC.Tiling
import OsC.Links
import OsC.Draws
import OsC.Entry
import OsC.Radix
import OsC.Walk
import OsC.Kmalloc
import OsC.Blocks
import OsC.HeapRefine
import OsC.HeapRuns
import OsC.Contents
import OsC.Alignment
import OsC.Vga
import OsC.Printf
import OsC.PrintfLoop
import OsC.Formats
import OsC.Conversions
import OsC.HexDigits
import OsC.Tags
import OsC.Layout
import OsC.Malformed
import OsC.Screen
import OsC.Printing
import OsC.FourWays
import OsC.Multiboot
import OsC.FrameAllocator
import OsC.FrameRuns
import OsC.Paging
import OsC.Recursive
import OsC.Tables
import OsC.PageMap
import OsC.Translate
import OsC.Boot
import OsC.HugePages
import OsC.Remap
import OsC.Sections
import OsC.Redirect
import OsC.Preempt
import OsC.Idt
import OsC.Pic
import OsC.Caching
import OsC.Tlb
import OsC.Specifications
import OsC.Truncated
import OsC.Keyboard
import OsC.Startup
import OsC.Release
import OsC.StaleTables
import OsC.Exhaustion
import OsC.MultibootPages
import OsC.Absent
import OsC.AreaChain
import OsC.BootCode
import OsC.Shim
import OsC.FirstFit
import OsC.Readers
import OsC.Entries
import OsC.OptionalTags
import OsC.ReadDecimal
import OsC.Descriptor
import OsC.Access
import OsC.AddressSpace
import OsC.HeapPages
import OsC.PagedHeap
import OsC.BringUp
import OsC.Dispatch
import OsC.Exceptions
import OsC.Fragmentation
import OsC.Processor
import OsC.RemapCache
import OsC.BringUpCache
