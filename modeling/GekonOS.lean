import GekonOS.Boot.IdentityMap
import GekonOS.Boot.PageMap
import GekonOS.Frames.Ownership
import GekonOS.Heap.Create
import GekonOS.Heap.Resize
import GekonOS.Heap.Search
import GekonOS.Heap.Writes
import GekonOS.Input.Decoder
import GekonOS.Input.Line
import GekonOS.Input.Ring
import GekonOS.Input.ShiftKeys
import GekonOS.Input.Buffer
import GekonOS.Interrupts.Dispatch
import GekonOS.Gui.Windows
import GekonOS.Console.Cursor
import GekonOS.Console.Literal
import GekonOS.Console.Prompt
import GekonOS.Heap.Index
import GekonOS.Heap.Carve
import GekonOS.Heap.InPlace
import GekonOS.Heap.Merge
import GekonOS.Heap.Coalesce
import GekonOS.Heap.Contract
import GekonOS.Heap.Length
import GekonOS.Heap.Sorted
import GekonOS.Heap.FirstFit
import GekonOS.Heap.Grow
import GekonOS.Heap.Extend
import GekonOS.Heap.Rounds
import GekonOS.Heap.Align
import GekonOS.Heap.Enough
import GekonOS.Frames.Exhaustion
import GekonOS.Frames.Storage
import GekonOS.Kernel.Vbe
import GekonOS.Gui.DrawLine
import GekonOS.Gui.DrawWindows
import GekonOS.Kernel.CharBuffer
import GekonOS.Console.ItoaBuffer
import GekonOS.Console.Scratch
import GekonOS.Console.DirectiveText
import GekonOS.Heap.Sound
import GekonOS.Heap.Calls
import GekonOS.Heap.Quiet
import GekonOS.Heap.BestFit
import GekonOS.Shared.BlockStore
import GekonOS.Heap.Contents
import GekonOS.Interrupts.Stubs
import GekonOS.Interrupts.Descriptors
import GekonOS.Interrupts.Ports
import GekonOS.Input.Leds
import GekonOS.Interrupts.Requests
import GekonOS.Boot.Paged
import GekonOS.Gui.Scene
import GekonOS.Console.Strings
import GekonOS.Boot.Kmain
import GekonOS.Interrupts.Ticks
